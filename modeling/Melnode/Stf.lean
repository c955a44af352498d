import Melnode.Structs

/-!
# The crates the node calls

`melstf`, `tip911-stakeset`, `tmelcrypt` and `stdcode` are not part of this repository. `Melstf`
collects the functions of them that `src/` calls, over unspecified types of sealed and unsealed
states; what the node relies on is stated as separate laws, and a theorem names the ones it needs.
The Merkle forest is not a parameter: a state is the value `from_block` and `apply_block` return,
whichever database its nodes are in.
-/

namespace Melnode

/-- `StateError`; the node names one case itself. -/
inductive StateError where
  | duplicateTx
  | other (text : String)
  deriving DecidableEq, Repr

/-- The functions of other crates, by the names the source calls them under. -/
structure Melstf (Sealed Unsealed : Type) where
  -- `melstructs`, `tmelcrypt`, `stdcode`
  epoch : Nat → Nat
  headerHash : Header → HashVal
  hashNosigs : Transaction → TxHash
  weight : Transaction → Nat
  verify : Ed25519PK → HashVal → Bytes → Bool
  decodeStakeDoc : Bytes → Option StakeDoc
  -- `tip911-stakeset`: the values of `pre_tip911()` in iteration order, and its root hash
  preTip911 : StakeSet → List Bytes
  stakesHash : StakeSet → HashVal
  -- `melstf`
  header : Sealed → Header
  rawStakes : Sealed → StakeSet
  applyBlock : Sealed → Block → Except StateError Sealed
  fromBlock : Block → StakeSet → Sealed
  toBlock : Sealed → Block
  nextUnsealed : Sealed → Unsealed
  sealState : Unsealed → Option ProposerAction → Sealed
  applyTx : Unsealed → Transaction → Except StateError Unsealed
  realize : GenesisConfig → Unsealed

namespace Melstf

variable {Sealed Unsealed : Type} (M : Melstf Sealed Unsealed)

/-- `genesis.realize(forest).seal(None)`, the state of height 0. -/
def genesisState (genesis : GenesisConfig) : Sealed := M.sealState (M.realize genesis) none

/-- The stake documents of a set in the order `pre_tip911()` yields them. -/
def iterDocs (stakes : StakeSet) : List StakeDoc :=
  (M.preTip911 stakes).filterMap M.decodeStakeDoc

/-! ## What the node relies on -/

/-- `pre_tip911()` yields the encoding of every document once, in some order, and stdcode decodes
what it encoded. -/
def EnumeratesStakes : Prop :=
  ∀ stakes : StakeSet,
    ((M.preTip911 stakes).map M.decodeStakeDoc).Perm (stakes.docs.map some)

/-- A state rebuilt from a block has the block's header and the given stakes, and the genesis state
is at height 0. -/
structure BuildsStates : Prop where
  header_fromBlock : ∀ blk stakes, M.header (M.fromBlock blk stakes) = blk.header
  rawStakes_fromBlock : ∀ blk stakes, M.rawStakes (M.fromBlock blk stakes) = stakes
  genesis_height : ∀ genesis, (M.header (M.genesisState genesis)).height = 0

/-- `apply_block` succeeds only with a state whose header is the block's, one height up. -/
structure ChecksHeader : Prop where
  header_eq : ∀ {s blk s'}, M.applyBlock s blk = .ok s' → M.header s' = blk.header
  height_eq : ∀ {s blk s'}, M.applyBlock s blk = .ok s' →
    blk.header.height = (M.header s).height + 1

/-- A state accepts every block built on its successor, and transactions do not move the height. -/
structure BuildsBlocks : Prop where
  header_toBlock : ∀ s, (M.toBlock s).header = M.header s
  accepts : ∀ {s : Sealed} {txs : List Transaction} {state} (action : Option ProposerAction),
    txs.foldlM M.applyTx (M.nextUnsealed s) = .ok state →
      (M.applyBlock s (M.toBlock (M.sealState state action))).isOk = true
  height_applyTx : ∀ {state tx state'}, M.applyTx state tx = .ok state' →
    (M.header (M.sealState state' none)).height = (M.header (M.sealState state none)).height

/-- The stake a transaction of a block adds: the document it carries, when the transition admits
it. -/
def admittedStake (hd : Header) (tx : Transaction) : Option StakeDoc :=
  if tx.kind = .stake ∧ (500000 ≤ hd.height ∨ hd.network ≠ .mainnet) then
    (M.decodeStakeDoc tx.data).filter fun doc =>
      decide (M.epoch hd.height < doc.eStart) && decide (doc.eStart < doc.ePostEnd) &&
        decide (tx.outputs.head?.map CoinData.value = some doc.symsStaked)
  else
    none

/-- Adds the stake of one transaction of a block. -/
def addAdmitted (hd : Header) (stakes : StakeSet) (tx : Transaction) : StakeSet :=
  match M.admittedStake hd tx with
  | some doc => stakes.addStake (M.hashNosigs tx) doc
  | none => stakes

/-- The stakes after a block: the expired ones are dropped, then the admitted ones are added. -/
def evolveStakes (stakes : StakeSet) (blk : Block) : StakeSet :=
  blk.transactions.foldl (M.addAdmitted blk.header)
    (stakes.unlockOld (M.epoch blk.header.height))

/-- How the transition treats stakes, and that the header commits to them. -/
structure EvolvesStakes : Prop where
  genesis_stakes : ∀ genesis, M.rawStakes (M.genesisState genesis) = genesis.stakes
  rawStakes_eq : ∀ {s blk s'}, M.applyBlock s blk = .ok s' →
    M.rawStakes s' = M.evolveStakes (M.rawStakes s) blk
  stakesHash_eq : ∀ {s blk s'}, M.applyBlock s blk = .ok s' →
    M.stakesHash (M.rawStakes s') = blk.header.stakesHash
  -- a block and the stakes after it determine the state
  fromBlock_eq : ∀ {s blk s'}, M.applyBlock s blk = .ok s' →
    M.fromBlock blk (M.rawStakes s') = s'

section Heights

variable {M} {txs : List Transaction} {state state' : Unsealed}

/-- What is built on the successor of a state is one height up. -/
theorem BuildsBlocks.sealed_height (hP : M.BuildsBlocks) (hC : M.ChecksHeader) {s : Sealed}
    (h : txs.foldlM M.applyTx (M.nextUnsealed s) = .ok state) :
    (M.header (M.sealState state none)).height = (M.header s).height + 1 := by
  have hok := hP.accepts none h
  cases happly : M.applyBlock s (M.toBlock (M.sealState state none)) with
  | error e =>
    rw [happly] at hok
    cases hok
  | ok s' =>
    rw [← hP.header_toBlock]
    exact hC.height_eq happly

theorem BuildsBlocks.height_foldlM (hP : M.BuildsBlocks) :
    ∀ {txs : List Transaction} {state state' : Unsealed},
      txs.foldlM M.applyTx state = .ok state' →
      (M.header (M.sealState state' none)).height = (M.header (M.sealState state none)).height := by
  intro txs
  induction txs with
  | nil =>
    intro state state' h
    cases h
    rfl
  | cons tx txs ih =>
    intro state state' h
    rw [List.foldlM_cons] at h
    cases happly : M.applyTx state tx with
    | error e =>
      rw [happly] at h
      cases h
    | ok next =>
      rw [happly] at h
      exact (ih h).trans (hP.height_applyTx happly)

/-- What is built on the genesis state before it is sealed is at height 0. -/
theorem BuildsBlocks.realize_height (hP : M.BuildsBlocks) (hB : M.BuildsStates)
    {genesis : GenesisConfig} (h : txs.foldlM M.applyTx (M.realize genesis) = .ok state) :
    (M.header (M.sealState state none)).height = 0 :=
  (hP.height_foldlM h).trans (hB.genesis_height genesis)

end Heights

section Enumerates

variable {M}

/-- Every enumerated value decodes. -/
theorem EnumeratesStakes.decodes (hM : M.EnumeratesStakes) (stakes : StakeSet) :
    ∀ bytes ∈ M.preTip911 stakes, ∃ doc, M.decodeStakeDoc bytes = some doc := by
  intro bytes hb
  have hmem : M.decodeStakeDoc bytes ∈ stakes.docs.map some :=
    (hM stakes).mem_iff.mp (List.mem_map_of_mem hb)
  obtain ⟨doc, -, hdoc⟩ := List.mem_map.mp hmem
  exact ⟨doc, hdoc.symm⟩

/-- The enumerated values decode to the documents of the iteration. -/
theorem EnumeratesStakes.map_decode (hM : M.EnumeratesStakes) (stakes : StakeSet) :
    (M.preTip911 stakes).map M.decodeStakeDoc = (M.iterDocs stakes).map some := by
  have hdec := hM.decodes stakes
  unfold iterDocs
  generalize M.preTip911 stakes = l at hdec
  induction l with
  | nil => rfl
  | cons b l ih =>
    obtain ⟨doc, hdoc⟩ := hdec b List.mem_cons_self
    simp [hdoc, ih fun x hx => hdec x (List.mem_cons_of_mem b hx)]

/-- The iteration is a permutation of the set's documents. -/
theorem EnumeratesStakes.iterDocs_perm (hM : M.EnumeratesStakes) (stakes : StakeSet) :
    (M.iterDocs stakes).Perm stakes.docs := by
  have h := (hM stakes).filterMap id
  rw [List.filterMap_map, List.filterMap_map] at h
  simpa [iterDocs, Function.comp_def] using h

/-- Sums over the documents do not depend on the iteration order. -/
theorem EnumeratesStakes.activeStake_iterDocs (hM : M.EnumeratesStakes) (stakes : StakeSet)
    (epoch : Nat) (p : Ed25519PK → Bool) :
    activeStake (M.iterDocs stakes) epoch p = activeStake stakes.docs epoch p :=
  Lib.weigh_perm _ _ (hM.iterDocs_perm stakes)

end Enumerates

end Melstf

end Melnode
