import Melnode.Staker.Invariant

/-!
# What a staker proposes

A staker compares heights only: the mempool may have been rebased by others between the read of the
base state and the snapshot. Every state a mempool is ever rebased on belongs to the stored chain
(`BasedOnChain`), and a chain has one state per height, so equal heights mean the same base.
-/

namespace Melnode

open Lib

/-- `stdcode` on blocks, with encodings `ω`. -/
structure BlockCode (ω : Type) where
  encode : Block → ω
  decode : ω → Option Block

namespace Melstf

variable {Sealed Unsealed : Type} {M : Melstf Sealed Unsealed} {genesis : GenesisConfig}
  {cfg : StakerConfig}

/-- `StakerInner::generate_proposal`. -/
def generateProposal {ω : Type} (code : BlockCode ω) (myProposal : Block) : ω :=
  code.encode myProposal

/-- `StakerInner::verify_proposal`. -/
def verifyProposalBytes {ω : Type} (M : Melstf Sealed Unsealed) (code : BlockCode ω)
    (baseState : Sealed) (prop : ω) : Bool :=
  match code.decode prop with
  | some blk => M.verifyProposal baseState blk
  | none => false

/-! ## The bases of a mempool -/

/-- The mempool is on the unsealed genesis state or on the successor of a stored state. -/
def BasedOnChain (M : Melstf Sealed Unsealed) (genesis : GenesisConfig) (db : Tables)
    (mp : Mempool Unsealed) : Prop :=
  Mempool.Follows M mp (M.realize genesis) ∨
    ∃ s, M.ReadingOk genesis db (.done s) ∧ Mempool.Follows M mp (M.nextUnsealed s)

section Based

variable {db db' : Tables} {mp mp' : Mempool Unsealed}

theorem BasedOnChain.grows (h : M.BasedOnChain genesis db mp) (hG : db.IsPrefix db') :
    M.BasedOnChain genesis db' mp := by
  rcases h with hfollows | ⟨s, hs, hfollows⟩
  · exact Or.inl hfollows
  · exact Or.inr ⟨s, ReadingOk.grows (r := .done s) hs hG, hfollows⟩

theorem BasedOnChain.applyTransaction (h : M.BasedOnChain genesis db mp) (tx : Transaction) :
    M.BasedOnChain genesis db (Mempool.applyTransaction M mp tx).2 := by
  rcases h with hfollows | ⟨s, hs, hfollows⟩
  · exact Or.inl (Mempool.follows_applyTransaction hfollows tx)
  · exact Or.inr ⟨s, hs, Mempool.follows_applyTransaction hfollows tx⟩

theorem BasedOnChain.rebase {s : Sealed} (hs : M.ReadingOk genesis db (.done s)) :
    M.BasedOnChain genesis db (Mempool.rebase M s) :=
  Or.inr ⟨s, hs, Mempool.follows_new _⟩

/-- **Equal heights, equal bases**: a mempool at the height above a stored state is on its
successor. -/
theorem BasedOnChain.follows (hB : M.BuildsStates) (hC : M.ChecksHeader) (hP : M.BuildsBlocks)
    (hwf : M.WellFormed genesis db) (h : M.BasedOnChain genesis db mp) {baseState : Sealed}
    (hbase : M.ReadingOk genesis db (.done baseState))
    (hheight : (M.header (M.sealState mp.toState none)).height = (M.header baseState).height + 1) :
    Mempool.Follows M mp (M.nextUnsealed baseState) := by
  rcases h with ⟨txs, htxs⟩ | ⟨s, ⟨k, -, hk⟩, txs, htxs⟩
  · have hzero := hP.realize_height hB htxs
    have hmp : (M.header (M.sealState mp.provisionalState none)).height =
        (M.header baseState).height + 1 := hheight
    omega
  · obtain ⟨j, -, hj⟩ := hbase
    have hnext := hP.sealed_height hC htxs
    have hmp : (M.header (M.sealState mp.provisionalState none)).height =
        (M.header baseState).height + 1 := hheight
    rw [hwf.stateAt_height hB hk] at hnext
    rw [hwf.stateAt_height hB hj] at hmp
    obtain rfl : k = j := by omega
    obtain rfl : s = baseState := Except.ok.inj (hk.symm.trans hj)
    exact ⟨txs, htxs⟩

end Based

/-! ## Steps of the storage -/

section Steps

variable {sh sh' : Shared Unsealed}

/-- A call changes the mempool by its rebase only. -/
theorem CallStep.mempool {i : Nat} {e : CallEvent} {call call' : Call Sealed}
    (hcall : M.CallOk genesis sh i call) (hstep : M.CallStep genesis i sh e call sh' call') :
    sh'.mempool = sh.mempool ∨
      ∃ s, M.ReadingOk genesis sh.db (.done s) ∧ sh'.mempool = Mempool.rebase M s := by
  cases hstep with
  | readCheck _ hr => exact Or.inl (hr.follows hcall).2.2.1
  | readRebase _ hr => exact Or.inl (hr.follows hcall.1).2.2.1
  | @rebase _ _ s => exact Or.inr ⟨s, hcall.1, rfl⟩
  | _ => exact Or.inl rfl

/-- The environment changes the mempool by a transaction, or by a rebase from outside. -/
theorem storageStep_mempool {d : StorageEvent Sealed} (hreopen : d ≠ .reopen)
    (h : M.storageStep genesis d sh = some sh') :
    sh'.mempool = sh.mempool ∨
      (∃ tx, sh'.mempool = (Mempool.applyTransaction M sh.mempool tx).2) ∨
      ∃ s, d = .rebaseMempool s ∧ sh'.mempool = Mempool.rebase M s := by
  cases storageStep_cases h with
  | sendTx tx => exact Or.inr (Or.inl ⟨tx, rfl⟩)
  | rebaseMempool s => exact Or.inr (Or.inr ⟨s, rfl, rfl⟩)
  | reopen => exact absurd rfl hreopen
  | _ => exact Or.inl rfl

/-- **A step of the storage** keeps the mempool on the chain, if a rebase from outside is on a
stored state. -/
theorem exec_basedOnChain (hB : M.BuildsStates)
    {c c' : Procs.Config Nat (Shared Unsealed) (Call Sealed)}
    {label : (Nat × CallEvent) ⊕ StorageEvent Sealed} (hok : M.SharedOk genesis c.shared)
    (hcalls : ∀ i, M.CallOk genesis c.shared i (c.procs i))
    (hbased : M.BasedOnChain genesis c.shared.db c.shared.mempool) (hreopen : label ≠ .inr .reopen)
    (hrebase : ∀ s, label = .inr (.rebaseMempool s) → M.ReadingOk genesis c.shared.db (.done s))
    (hexec : (M.storage genesis).exec c label = some c') :
    M.BasedOnChain genesis c'.shared.db c'.shared.mempool := by
  have hG := (exec_ok hB hok hcalls hexec).2.2.db
  cases label with
  | inl call =>
    obtain ⟨s', l', hstep, rfl⟩ := Procs.exec_proc.mp hexec
    rcases (callStep_cases hstep).2.mempool (hcalls call.1) with hsame | ⟨s, hs, heq⟩
    · have hmp : s'.mempool = c.shared.mempool := hsame
      show M.BasedOnChain genesis s'.db s'.mempool
      rw [hmp]
      exact hbased.grows hG
    · show M.BasedOnChain genesis s'.db s'.mempool
      rw [heq]
      exact (BasedOnChain.rebase hs).grows hG
  | inr d =>
    obtain ⟨s', hstep, rfl⟩ := Procs.exec_env.mp hexec
    show M.BasedOnChain genesis s'.db s'.mempool
    have hne : d ≠ .reopen := fun heq => hreopen (congrArg Sum.inr heq)
    rcases storageStep_mempool hne hstep with hsame | ⟨tx, heq⟩ | ⟨s, rfl, heq⟩
    · rw [hsame]
      exact hbased.grows hG
    · rw [heq]
      exact (hbased.applyTransaction tx).grows hG
    · rw [heq]
      exact (BasedOnChain.rebase (hrebase s rfl)).grows hG

end Steps

/-! ## The staker -/

section Staker

variable {n₀ n n' : Node Sealed Unsealed}

/-- What a step of the node does to the mempool, the round being in order. -/
theorem Touches.rebase_ok {e : NodeEvent Sealed} {label : (Nat × CallEvent) ⊕ StorageEvent Sealed}
    (hok : M.NodeOk genesis n) (h : Touches n e label) :
    label ≠ .inr .reopen ∧
      ∀ s, label = .inr (.rebaseMempool s) → M.ReadingOk genesis n.storage.shared.db (.done s) := by
  cases h with
  | storage hleaves =>
    refine ⟨leaves_ne_reopen hleaves, ?_⟩
    rintro s rfl
    cases hleaves
  | fetch => exact ⟨nofun, nofun⟩
  | kill => exact ⟨nofun, nofun⟩
  | rebase hround =>
    refine ⟨nofun, ?_⟩
    rintro s heq
    cases heq
    have hreading := hok.round
    rw [hround] at hreading
    exact hreading
  | submit => exact ⟨nofun, nofun⟩
  | skip => exact ⟨nofun, nofun⟩

/-- The mempool of a node that starts on an open storage stays on the chain. -/
theorem node_basedOnChain (hB : M.BuildsStates) (hopened : M.NodeOpened genesis n₀)
    (hmempool : n₀.storage.shared.mempool = Mempool.new (M.realize genesis))
    (hrun : (M.node genesis cfg).Reaches n₀ n) :
    M.BasedOnChain genesis n.storage.shared.db n.storage.shared.mempool := by
  induction hrun with
  | refl =>
    rw [hmempool]
    exact Or.inl (Mempool.follows_new _)
  | @tail t t' hrun hnext ih =>
    obtain ⟨e, hstep⟩ := hnext
    have hok : M.NodeOk genesis t := node_reachable hB ⟨n₀, hopened, hrun⟩
    rcases nodeStep_storage hstep with heq | ⟨label, htouch, hexec⟩
    · rw [heq]
      exact ih
    · obtain ⟨hreopen, hrebase⟩ := htouch.rebase_ok hok
      exact exec_basedOnChain hB hok.shared hok.calls ih hreopen hrebase hexec

theorem propose_waiting (h : M.stakerStep genesis cfg .propose n = some n') :
    ∃ baseState, n.round = .waiting baseState := by
  unfold stakerStep at h
  dsimp only at h
  split at h
  · cases h
  · cases hround : n.round with
    | waiting baseState => exact ⟨baseState, rfl⟩
    | _ =>
      rw [hround] at h
      cases h

/-- **A staker's own proposal is valid for its base state.** Whatever others do to the storage and
the mempool, whenever a round gets past its height comparison the snapshot it proposes was built on
the successor of its base state, and `verify_proposal` accepts what `generate_proposal` returns. -/
theorem proposal_valid (hB : M.BuildsStates) (hC : M.ChecksHeader) (hP : M.BuildsBlocks)
    {ω : Type} {code : BlockCode ω} (hcode : ∀ blk, code.decode (code.encode blk) = some blk)
    (hopened : M.NodeOpened genesis n₀)
    (hmempool : n₀.storage.shared.mempool = Mempool.new (M.realize genesis))
    (hrun : (M.node genesis cfg).Reaches n₀ n)
    (hstep : M.nodeStep genesis cfg n (.staker .propose) = some n') {baseState : Sealed}
    {myProposal : Block} (hround : n'.round = .deciding baseState myProposal) :
    Mempool.Follows M n.storage.shared.mempool (M.nextUnsealed baseState) ∧
      myProposal = M.toBlock (M.sealState n.storage.shared.mempool.toState
        (some (M.proposerAction cfg baseState))) ∧
      M.verifyProposalBytes code baseState (generateProposal code myProposal) = true := by
  have hok : M.NodeOk genesis n := node_reachable hB ⟨n₀, hopened, hrun⟩
  have hbased := node_basedOnChain hB hopened hmempool hrun
  obtain ⟨-, hcases⟩ := stakerStep_cases hstep
  have hbefore := hok.round
  cases hcases with
  | mismatch => cases hround
  | crash =>
    -- a panic leaves the round where it was
    obtain ⟨base, hwaiting⟩ := propose_waiting hstep
    have hsame : n.round = .deciding baseState myProposal := hround
    rw [hwaiting] at hsame
    cases hsame
  | @propose base heq hheight =>
    cases hround
    rw [heq] at hbefore
    have hfollows := hbased.follows hB hC hP (hok.shared.chain.wellFormed hB) hbefore hheight
    refine ⟨hfollows, rfl, ?_⟩
    obtain ⟨txs, htxs⟩ := hfollows
    simp only [verifyProposalBytes, generateProposal, hcode]
    exact hP.accepts _ htxs

end Staker

end Melstf

/-! ## A node right after `open` -/

namespace Ledger

/-- The three-staker network just opened, the mempool on the unsealed genesis state. -/
def nodeOpen : Node Sealed Unsealed := { nodeStart with storage := ledger.freshStorage threeStakers }

theorem nodeOpen_opened : ledger.NodeOpened threeStakers nodeOpen where
  shared := Melstf.SharedOk.fresh
  lock := rfl
  calls := rfl
  round := rfl
  sigGather := rfl
  signed := rfl
  failed := rfl

/-- The first round finds the mempool at height 0 and rebases it; before the second takes its
snapshot a payment comes in. -/
def secondRound : List (NodeEvent Sealed) :=
  readGenesis ++ [.staker .propose, .staker .rebase, .staker (.read false), .staker (.read false),
    .staker .wait, .storage (.inr (.sendTx (payment 1)))]

/-- The node before its first proposal. -/
def beforeProposal : Node Sealed Unsealed :=
  (Lts.run (ledger.nodeStep threeStakers staker) nodeOpen secondRound).getD nodeOpen

/-- Blocks as their own encoding. -/
def blockCode : BlockCode Block where
  encode := id
  decode := some

theorem blockCode_decode (blk : Block) : blockCode.decode (blockCode.encode blk) = some blk := rfl

/-- The base state and the proposal of a round that runs streamlette. -/
def proposalOf (n : Node Sealed Unsealed) : Option (Sealed × Block) :=
  match n.round with
  | .deciding baseState myProposal => some (baseState, myProposal)
  | _ => none

end Ledger

namespace Melstf

/-- The second round of a node that was just opened proposes the payment. -/
theorem proposal_valid_secondRound :
    ∃ n' baseState myProposal,
      ledger.nodeStep Ledger.threeStakers Ledger.staker Ledger.beforeProposal (.staker .propose) =
        some n' ∧
      n'.round = .deciding baseState myProposal ∧
      Mempool.Follows ledger Ledger.beforeProposal.storage.shared.mempool
        (ledger.nextUnsealed baseState) ∧
      myProposal = ledger.toBlock (ledger.sealState
        Ledger.beforeProposal.storage.shared.mempool.toState
          (some (ledger.proposerAction Ledger.staker baseState))) ∧
      ledger.verifyProposalBytes Ledger.blockCode baseState
        (generateProposal Ledger.blockCode myProposal) = true := by
  have hrun : (ledger.node Ledger.threeStakers Ledger.staker).Reaches Ledger.nodeOpen
      Ledger.beforeProposal := Lts.reaches_end (by decide +kernel)
  have hproposes : ((ledger.nodeStep Ledger.threeStakers Ledger.staker Ledger.beforeProposal
      (.staker .propose)).bind Ledger.proposalOf).isSome = true := by decide +kernel
  obtain ⟨⟨baseState, myProposal⟩, hproposal⟩ := Option.isSome_iff_exists.mp hproposes
  obtain ⟨n', hstep, hround⟩ := Option.bind_eq_some_iff.mp hproposal
  have hround' : n'.round = .deciding baseState myProposal := by
    unfold Ledger.proposalOf at hround
    split at hround
    · next heq =>
      cases hround
      exact heq
    · cases hround
  have hvalid := proposal_valid ledger_builds ledger_checks ledger_proposes
    (fun blk => Ledger.blockCode_decode blk) Ledger.nodeOpen_opened rfl hrun hstep hround'
  exact ⟨n', baseState, myProposal, hstep, hround', hvalid⟩

end Melstf

end Melnode
