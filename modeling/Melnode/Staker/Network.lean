import Melnode.Staker.Restart
import Melnode.Staker.Gather
import Melnode.Storage.Carried

/-!
# A network of stakers

`stakers` is any number of stakers, each with its own node, over what they send each other: the
replies of `get_sigs`, and blocks with their proofs. A staker merges a reply and block sync takes a
block only out of what was sent; the environment sends whatever it likes. Nothing that was sent is
lost or bound to one receiver, so messages are delivered late, twice, to anybody or never. Every
staker may be killed and started again.
-/

namespace Melnode

open Lib

/-- What is sent. -/
inductive Message where
  -- a reply of `get_sigs` for a height
  | sigs (height : Nat) (reply : ConsensusProof)
  -- a block and its proof, as block sync gets them
  | block (blk : Block) (cproof : ConsensusProof)
  deriving DecidableEq

structure Traffic (ι : Type) where
  sent : List Message
  -- what each staker has signed; nothing reads it
  signed : ι → List (Nat × HashVal)

/-- A staker: its node, and its side of `get_sigs`. -/
structure StakerActor (Sealed Unsealed : Type) where
  node : Node Sealed Unsealed
  -- the heights of the calls of `get_sigs` that have found no stored proof
  unanswered : List Nat

inductive ActorEvent (Sealed : Type) where
  | node (e : NodeEvent Sealed)
  | restart
  -- `storage.get_consensus(height)` of a `get_sigs`
  | getConsensus (height : Nat)
  -- `sig_gather.get(&height)` of a `get_sigs`
  | getGathered (height : Nat)
  -- a block and its proof are served
  | getBlock (height : Nat)

variable {Sealed Unsealed ι : Type} [DecidableEq ι]

def Traffic.send (t : Traffic ι) (m : Message) : Traffic ι := { t with sent := m :: t.sent }

namespace Melstf

variable (M : Melstf Sealed Unsealed) (genesis : GenesisConfig) (cfg : ι → StakerConfig)

/-- What a step takes in was sent. -/
def hears (sent : List Message) (round : Round Sealed) : NodeEvent Sealed → Bool
  | .staker (.merge reply) =>
    match round with
    | .gathering baseState _ => decide (.sigs (M.nextHeight baseState) reply ∈ sent)
    | _ => true
  | .storage (.inl (_, .invoke blk cproof)) => decide (.block blk cproof ∈ sent)
  | _ => true

/-- One step of staker `i`. -/
def actorStep (i : ι) (e : ActorEvent Sealed) (t : Traffic ι) (a : StakerActor Sealed Unsealed) :
    Option (Traffic ι × StakerActor Sealed Unsealed) :=
  let sh := a.node.storage.shared
  match e with
  | .node e =>
    if M.hears t.sent a.node.round e then
      (M.nodeStep genesis (cfg i) a.node e).map fun node =>
        ({ t with signed := Function.update t.signed i node.signed }, { a with node := node })
    else
      none
  | .restart => (M.restart genesis a.node).map fun node => (t, ⟨node, []⟩)
  | .getConsensus height =>
    if sh.crashed then none else
    match sh.db.consensusProofs[height]? with
    | some proof => some (t.send (.sigs height proof), a)
    | none => some (t, { a with unanswered := height :: a.unanswered })
  | .getGathered height =>
    if sh.crashed = false ∧ height ∈ a.unanswered then
      some (t.send (.sigs height (a.node.sigGather[height]?.getD ∅)),
        { a with unanswered := a.unanswered.erase height })
    else
      none
  | .getBlock height =>
    if sh.crashed then none else
    match sh.db.block? height, sh.db.consensusProofs[height]? with
    | some blk, some proof => some (t.send (.block blk proof), a)
    | _, _ => none

/-- A node that starts on a fresh database. -/
def freshNode : Node Sealed Unsealed where
  storage := M.freshStorage genesis
  round := .listening
  sigGather := ∅
  signed := []
  failed := []

/-- The stakers of one genesis, each from a fresh database on. -/
def stakers : Procs ι (Traffic ι) (StakerActor Sealed Unsealed) (ActorEvent Sealed) Message where
  init t := t = ⟨[], fun _ => []⟩
  start := ⟨M.freshNode genesis, []⟩
  step := M.actorStep genesis cfg
  env m t := some (t.send m)
  moved _ a := a

/-! ## What a step can do -/

/-- The cases of `actorStep`. -/
inductive ActorStep (i : ι) (t : Traffic ι) (a : StakerActor Sealed Unsealed) :
    ActorEvent Sealed → Traffic ι → StakerActor Sealed Unsealed → Prop where
  | node {e : NodeEvent Sealed} {node : Node Sealed Unsealed}
      (hhears : M.hears t.sent a.node.round e = true)
      (hstep : M.nodeStep genesis (cfg i) a.node e = some node) :
      ActorStep i t a (.node e) { t with signed := Function.update t.signed i node.signed }
        { a with node := node }
  | restart {node : Node Sealed Unsealed} (hstep : M.restart genesis a.node = some node) :
      ActorStep i t a .restart t ⟨node, []⟩
  | stored {height : Nat} {proof : ConsensusProof}
      (hproof : a.node.storage.shared.db.consensusProofs[height]? = some proof) :
      ActorStep i t a (.getConsensus height) (t.send (.sigs height proof)) a
  | unanswered {height : Nat} :
      ActorStep i t a (.getConsensus height) t { a with unanswered := height :: a.unanswered }
  | gathered {height : Nat} :
      ActorStep i t a (.getGathered height)
        (t.send (.sigs height (a.node.sigGather[height]?.getD ∅)))
        { a with unanswered := a.unanswered.erase height }
  | block {height : Nat} {blk : Block} {proof : ConsensusProof}
      (hblk : a.node.storage.shared.db.block? height = some blk)
      (hproof : a.node.storage.shared.db.consensusProofs[height]? = some proof) :
      ActorStep i t a (.getBlock height) (t.send (.block blk proof)) a

variable {M genesis cfg} {i : ι} {t t' : Traffic ι} {a a' : StakerActor Sealed Unsealed}

theorem actorStep_cases {e : ActorEvent Sealed}
    (h : M.actorStep genesis cfg i e t a = some (t', a')) : M.ActorStep genesis cfg i t a e t' a' := by
  unfold actorStep at h
  cases e with
  | node e =>
    dsimp only at h
    split at h
    · next hhears =>
      obtain ⟨node, hstep, heq⟩ := Option.map_eq_some_iff.mp h
      cases heq
      exact .node hhears hstep
    · cases h
  | restart =>
    obtain ⟨node, hstep, heq⟩ := Option.map_eq_some_iff.mp h
    cases heq
    exact .restart hstep
  | getConsensus height =>
    dsimp only at h
    split at h
    · cases h
    · split at h
      · next hproof =>
        cases h
        exact .stored hproof
      · cases h
        exact .unanswered
  | getGathered height =>
    dsimp only at h
    split at h
    · cases h
      exact .gathered
    · cases h
  | getBlock height =>
    dsimp only at h
    split at h
    · cases h
    · split at h
      · next hblk hproof =>
        cases h
        exact .block hblk hproof
      · cases h

/-- What a merge takes in was sent for the round's height. -/
theorem hears_merge {sent : List Message} {round : Round Sealed} {baseState : Sealed}
    {decision : Block} {reply : ConsensusProof}
    (h : M.hears sent round (.staker (.merge reply)) = true)
    (hround : round = .gathering baseState decision) :
    .sigs (M.nextHeight baseState) reply ∈ sent := by
  subst hround
  exact of_decide_eq_true h

theorem hears_invoke {sent : List Message} {round : Round Sealed} {k : Nat} {blk : Block}
    {cproof : ConsensusProof} (h : M.hears sent round (.storage (.inl (k, .invoke blk cproof))) = true) :
    .block blk cproof ∈ sent :=
  of_decide_eq_true h

/-- A staker that gathers takes in a reply. -/
theorem nodeStep_merge {n : Node Sealed Unsealed} {c : StakerConfig} {baseState : Sealed}
    {decision : Block} (hcrash : n.storage.shared.crashed = false)
    (hround : n.round = .gathering baseState decision) (reply : ConsensusProof) :
    M.nodeStep genesis c n (.staker (.merge reply)) = some { n with
      sigGather := n.sigGather.insert (M.nextHeight baseState)
        (mergeReply (n.sigGather[M.nextHeight baseState]?.getD ∅) reply) } := by
  obtain ⟨storage, round, sigGather, signed, failed⟩ := n
  cases hround
  simp only [nodeStep, stakerStep] at hcrash ⊢
  rw [hcrash]
  rfl

/-- A staker signs by deciding. -/
theorem nodeStep_signed {n n' : Node Sealed Unsealed} {c : StakerConfig} {e : NodeEvent Sealed}
    (h : M.nodeStep genesis c n e = some n') :
    n'.signed = n.signed ∨ ∃ decision, e = .staker (.decide decision) ∧
      n'.signed = (decision.header.height, M.headerHash decision.header) :: n.signed := by
  cases e with
  | storage label =>
    obtain ⟨-, storage, -, rfl⟩ := nodeStep_storage_eq h
    exact Or.inl rfl
  | staker e =>
    obtain ⟨-, hcases⟩ := stakerStep_cases h
    cases hcases with
    | decide => exact Or.inr ⟨_, rfl, rfl⟩
    | _ => exact Or.inl rfl

theorem decide_signed {n n' : Node Sealed Unsealed} {c : StakerConfig} {decision : Block}
    (h : M.nodeStep genesis c n (.staker (.decide decision)) = some n') :
    n'.signed = (decision.header.height, M.headerHash decision.header) :: n.signed := by
  have h' : M.stakerStep genesis c (.decide decision) n = some n' := h
  unfold stakerStep at h'
  dsimp only at h'
  split at h'
  · cases h'
  · cases hround : n.round with
    | deciding baseState proposal =>
      simp only [hround] at h'
      split at h'
      · cases h'
        rfl
      · cases h'
    | _ =>
      simp only [hround] at h'
      cases h'

theorem nodeStep_signed_subset {n n' : Node Sealed Unsealed} {c : StakerConfig}
    {e : NodeEvent Sealed} (h : M.nodeStep genesis c n e = some n') : n.signed ⊆ n'.signed := by
  rcases nodeStep_signed h with heq | ⟨decision, -, heq⟩
  · rw [heq]
    exact List.Subset.refl _
  · rw [heq]
    exact List.subset_cons_self _ _

/-- What holds of every gathered map is kept by a step, if it holds of the map a decision begins and
of one that takes in a reply. -/
theorem nodeStep_sigGather {R : Nat → ConsensusProof → Prop} {n n' : Node Sealed Unsealed}
    {c : StakerConfig} {e : NodeEvent Sealed} (h : M.nodeStep genesis c n e = some n')
    (hold : ∀ height map, n.sigGather[height]? = some map → R height map)
    (hdecide : ∀ decision, e = .staker (.decide decision) → R decision.header.height
      ((∅ : ConsensusProof).insert c.publicKey (c.sign (M.headerHash decision.header))))
    (hmerge : ∀ baseState decision reply, e = .staker (.merge reply) →
      n.round = .gathering baseState decision → R (M.nextHeight baseState)
        (mergeReply (n.sigGather[M.nextHeight baseState]?.getD ∅) reply)) :
    ∀ height map, n'.sigGather[height]? = some map → R height map := by
  intro height map hmap
  cases e with
  | storage label =>
    obtain ⟨-, storage, -, rfl⟩ := nodeStep_storage_eq h
    exact hold height map hmap
  | staker e =>
    obtain ⟨-, hcases⟩ := stakerStep_cases h
    cases hcases with
    | listen => exact absurd hmap Table.getElem?_empty_ne
    | @wait baseState =>
      have hpruned : (pruneSigs n.sigGather (M.nextHeight baseState))[height]? = some map := hmap
      unfold pruneSigs at hpruned
      split at hpruned
      · exact hold height map (Table.of_getElem?_erase hpruned)
      · exact hold height map hpruned
    | decide =>
      rcases Table.of_getElem?_insert hmap with ⟨rfl, rfl⟩ | hmap
      · exact hdecide _ rfl
      · exact hold height map hmap
    | merge reply hround =>
      rcases Table.of_getElem?_insert hmap with ⟨rfl, rfl⟩ | hmap
      · exact hmerge _ _ _ rfl hround
      · exact hold height map hmap
    | _ => exact hold height map hmap

/-- A round gathers for a block once it has decided it. -/
theorem nodeStep_gathering {n n' : Node Sealed Unsealed} {c : StakerConfig} {e : NodeEvent Sealed}
    (h : M.nodeStep genesis c n e = some n') {baseState : Sealed} {decision : Block}
    (hround : n'.round = .gathering baseState decision) :
    n.round = .gathering baseState decision ∨ e = .staker (.decide decision) := by
  cases e with
  | storage label =>
    obtain ⟨-, storage, -, rfl⟩ := nodeStep_storage_eq h
    exact Or.inl hround
  | staker e =>
    obtain ⟨-, hcases⟩ := stakerStep_cases h
    cases hcases with
    | listen ok => cases ok <;> cases hround
    | decide =>
      cases hround
      exact Or.inr rfl
    | merge => exact Or.inl hround
    | crash => exact Or.inl hround
    | _ => cases hround

/-! ## Each node on its own -/

/-- A step of a node on what its calls carry: a call that is made meets the condition. -/
theorem Carries.nodeStep (hB : M.BuildsStates) {P : Block → ConsensusProof → Prop}
    {n n' : Node Sealed Unsealed} {c : StakerConfig} {e : NodeEvent Sealed}
    (hok : M.NodeOk genesis n) (hcarries : Carries P n.storage)
    (h : M.nodeStep genesis c n e = some n')
    (hsync : ∀ i blk cproof, e = .storage (.inl (i, .invoke blk cproof)) → P blk cproof)
    (hsubmit : ∀ baseState decision cproof, n.round = .gathering baseState decision →
      n.sigGather[decision.header.height]?.getD ∅ = cproof → P decision cproof) :
    Carries P n'.storage := by
  cases e with
  | storage label =>
    obtain ⟨-, storage, hexec, rfl⟩ := nodeStep_storage_eq h
    refine hcarries.exec hB hok.shared hexec ?_
    rintro i blk cproof rfl
    exact hsync i blk cproof rfl
  | staker e =>
    obtain ⟨hcrash, hcases⟩ := stakerStep_cases h
    cases hcases with
    | @submit base d cproof i storage hround hproof hexec =>
      refine hcarries.exec hB hok.shared hexec ?_
      intro j blk proof heq
      cases heq
      obtain ⟨rfl, -, -⟩ := getProof_some hproof
      exact hsubmit _ _ _ hround rfl
    | rebase _ hexec =>
      refine hcarries.exec hB hok.shared hexec ?_
      intro j blk proof heq
      cases heq
    | skipCall _ _ hexec =>
      refine hcarries.exec hB hok.shared hexec ?_
      intro j blk proof heq
      cases heq
    | read _ _ hr =>
      refine ⟨hcarries.calls, fun hblk hproof => ?_⟩
      rw [hr.db_eq] at hblk hproof
      exact hcarries.rows hblk hproof
    | _ => exact ⟨hcarries.calls, hcarries.rows⟩

theorem Carries.restart (hB : M.BuildsStates) {P : Block → ConsensusProof → Prop}
    {n n' : Node Sealed Unsealed} (hok : M.NodeOk genesis n) (hcarries : Carries P n.storage)
    (h : M.restart genesis n = some n') : Carries P n'.storage := by
  obtain ⟨storage, hexec, rfl⟩ := restart_cases h
  refine hcarries.exec hB hok.shared hexec ?_
  intro j blk proof heq
  cases heq

theorem freshNode_opened : M.NodeOpened genesis (M.freshNode genesis) where
  shared := SharedOk.fresh
  lock := rfl
  calls := rfl
  round := rfl
  sigGather := rfl
  signed := rfl
  failed := rfl

/-- Only a call of the storage's own checks a block. -/
theorem checksMeet_of_touches {Q : Sealed → Block → ConsensusProof → Prop}
    {n : Node Sealed Unsealed} {e : NodeEvent Sealed}
    {label : (Nat × CallEvent) ⊕ StorageEvent Sealed} (htouch : Touches n e label)
    (hgood : ∀ label, e = .storage label → M.ChecksMeet Q n.storage label) :
    M.ChecksMeet Q n.storage label := by
  cases htouch with
  | storage => exact hgood _ rfl
  | _ =>
    intro a ha
    cases ha

/-- The storage of a staker of the network runs as a storage does, and its checks meet what those of
the network do. -/
theorem stakers_storage {Q : Sealed → Block → ConsensusProof → Prop}
    {good : Procs.Config ι (Traffic ι) (StakerActor Sealed Unsealed) →
      (ι × ActorEvent Sealed) ⊕ Message → Prop}
    (hgood : ∀ c i label, good c (.inl (i, .node (.storage label))) →
      M.ChecksMeet Q (c.procs i).node.storage label)
    {c : Procs.Config ι (Traffic ι) (StakerActor Sealed Unsealed)}
    (hc : ((M.stakers genesis cfg).lts.guard good).Reachable c) (i : ι) :
    ((M.storage genesis).lts.guard (M.ChecksMeet Q)).Reachable (c.procs i).node.storage := by
  let storage : StakerActor Sealed Unsealed →
    Procs.Config Nat (Shared Unsealed) (Call Sealed) := fun a => a.node.storage
  have hfresh : ((M.storage genesis).lts.guard (M.ChecksMeet Q)).init (M.freshStorage genesis) :=
    ⟨rfl, rfl⟩
  suffices hlocal : ((M.storage genesis).lts.guard (M.ChecksMeet Q)).Reachable
      (storage (c.procs i)) from hlocal
  refine Procs.local_reachable i hfresh ?_ (fun _ _ => rfl) hc
  intro c e t' a' hg hstep
  have hstep' : M.actorStep genesis cfg i e c.shared (c.procs i) = some (t', a') := hstep
  have hcases := actorStep_cases hstep'
  generalize hp : c.procs i = a at hcases
  cases hcases with
  | node _ hnode =>
    rcases nodeStep_storage hnode with heq | ⟨label, htouch, hexec⟩
    · exact Or.inl heq
    · refine Or.inr ⟨label, checksMeet_of_touches htouch ?_, hexec⟩
      rintro label rfl
      have hmeet := hgood c i label hg
      rw [hp] at hmeet
      exact hmeet
  | restart hrestart =>
    obtain ⟨storage, hexec, rfl⟩ := restart_cases hrestart
    refine Or.inr ⟨_, ?_, hexec⟩
    intro x hx
    cases hx
  | stored => exact Or.inl rfl
  | unanswered => exact Or.inl rfl
  | gathered => exact Or.inl rfl
  | block => exact Or.inl rfl

/-- How the traffic may change under a staker: more is sent, and the others sign. -/
structure Flows (i : ι) (t t' : Traffic ι) : Prop where
  sent : t.sent ⊆ t'.sent
  signed : ∀ j, t.signed j ⊆ t'.signed j
  others : ∀ j, j ≠ i → t'.signed j = t.signed j

theorem ActorStep.flows {e : ActorEvent Sealed} (h : M.ActorStep genesis cfg i t a e t' a')
    (hsigned : t.signed i = a.node.signed) : Flows i t t' ∧ t'.signed i = a'.node.signed := by
  have hsend : ∀ m, Flows i t (t.send m) := by
    intro m
    exact ⟨List.subset_cons_self _ _, fun _ => List.Subset.refl _, fun _ _ => rfl⟩
  cases h with
  | @node e node _ hstep =>
    refine ⟨⟨List.Subset.refl _, fun j => ?_, fun j hj => Function.update_of_ne hj _ _⟩,
      Function.update_self _ _ _⟩
    show t.signed j ⊆ Function.update t.signed i node.signed j
    by_cases hj : j = i
    · subst hj
      rw [Function.update_self, hsigned]
      exact nodeStep_signed_subset hstep
    · rw [Function.update_of_ne hj]
      exact List.Subset.refl _
  | restart hrestart =>
    obtain ⟨storage, -, rfl⟩ := restart_cases hrestart
    exact ⟨⟨List.Subset.refl _, fun _ => List.Subset.refl _, fun _ _ => rfl⟩, hsigned⟩
  | stored => exact ⟨hsend _, hsigned⟩
  | unanswered =>
    exact ⟨⟨List.Subset.refl _, fun _ => List.Subset.refl _, fun _ _ => rfl⟩, hsigned⟩
  | gathered => exact ⟨hsend _, hsigned⟩
  | block => exact ⟨hsend _, hsigned⟩

end Melstf

end Melnode
