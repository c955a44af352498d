import Melnode.Staker.Agreement
import Melnode.Staker.Proposal
import Melnode.Staker.Weights
import Melnode.Storage.Blocks

/-!
# What streamlette is given

For each round a staker makes a `StakerInner` of its base state, its own proposal and a nonce, which
is the height of the base state; streamlette takes the vote weights and the judgement of proposals from
it, the nonce is its seed, and stakers exchange diffs by nonce. As long as the stakers agree, rounds with one
nonce have one base state, and each accepts what another proposes (`rounds_alike`).
-/

namespace Melnode

open Lib

variable {Sealed Unsealed ι : Type}

/-- `StakerInner`, as far as `DeciderConfig` reads it. -/
structure StakerInner (Sealed : Type) where
  baseState : Sealed
  myProposal : Block
  nonce : Nat

/-- The base state of a round that has begun streamlette. -/
def Round.baseState? (round : Round Sealed) : Option Sealed := round.racing.map Prod.fst

namespace Melstf

variable (M : Melstf Sealed Unsealed) (genesis : GenesisConfig)

/-- The `StakerInner` of a round while streamlette decides. -/
def stakerInner : Round Sealed → Option (StakerInner Sealed)
  | .deciding baseState myProposal => some ⟨baseState, myProposal, (M.header baseState).height⟩
  | _ => none

/-- What is known of a node that proposes: its mempool is on the chain, and a round's own proposal is
valid on the base state. -/
structure ProposesOk (n : Node Sealed Unsealed) : Prop where
  based : M.BasedOnChain genesis n.storage.shared.db n.storage.shared.mempool
  proposal : ∀ {baseState : Sealed} {myProposal : Block},
    n.round = .deciding baseState myProposal → M.verifyProposal baseState myProposal = true

variable {M genesis} {cfg : StakerConfig} {n n' : Node Sealed Unsealed}

/-! ## One node -/

section Node

variable (hB : M.BuildsStates) (hC : M.ChecksHeader) (hP : M.BuildsBlocks)

/-- A round begins streamlette by proposing. -/
theorem StakerStep.deciding {e : StakerEvent} (hstep : M.StakerStep genesis cfg n e n')
    {baseState : Sealed} {myProposal : Block} (hround : n'.round = .deciding baseState myProposal) :
    n.round = .deciding baseState myProposal ∨
      (M.header (M.sealState n.storage.shared.mempool.toState none)).height = M.nextHeight baseState ∧
      n.round = .waiting baseState ∧
      myProposal = M.toBlock (M.sealState n.storage.shared.mempool.toState
        (some (M.proposerAction cfg baseState))) := by
  cases hstep with
  | propose heq hheight =>
    cases hround
    exact Or.inr ⟨hheight, heq, rfl⟩
  | listen ok => cases ok <;> cases hround
  | merge reply heq =>
    rw [heq] at hround
    cases hround
  | crash => exact Or.inl hround
  | _ => cases hround

include hB hC hP in
/-- **One step** of a process: a proposal is made on the successor of the base state. -/
theorem ProposesOk.nodeStep (hok : M.NodeOk genesis n) (h : M.ProposesOk genesis n)
    {e : NodeEvent Sealed} (hstep : M.nodeStep genesis cfg n e = some n') :
    M.ProposesOk genesis n' := by
  constructor
  · rcases nodeStep_storage hstep with heq | ⟨label, htouch, hexec⟩
    · rw [heq]
      exact h.based
    · obtain ⟨hreopen, hrebase⟩ := htouch.rebase_ok hok
      exact exec_basedOnChain hB hok.shared hok.calls h.based hreopen hrebase hexec
  · intro baseState myProposal hround
    cases e with
    | storage label =>
      obtain ⟨-, storage, -, rfl⟩ := nodeStep_storage_eq hstep
      exact h.proposal hround
    | staker e =>
      rcases (stakerStep_cases hstep).2.deciding hround with hsame | ⟨hheight, hwaiting, rfl⟩
      · exact h.proposal hsame
      · have hbase := hok.round
        rw [hwaiting] at hbase
        obtain ⟨txs, htxs⟩ :=
          h.based.follows hB hC hP (hok.shared.chain.wellFormed hB) hbase hheight
        exact hP.accepts _ htxs

/-- A process that is started again has a mempool on the genesis state. -/
theorem ProposesOk.restart (hstep : M.restart genesis n = some n') : M.ProposesOk genesis n' := by
  obtain ⟨storage, hexec, rfl⟩ := restart_cases hstep
  obtain ⟨sh, henv, rfl⟩ := Procs.exec_env.mp hexec
  have hreopen : M.storageStep genesis .reopen n.storage.shared = some sh := henv
  refine ⟨?_, fun hround => by cases hround⟩
  cases storageStep_cases hreopen with
  | reopen => exact Or.inl (Mempool.follows_new _)

end Node

/-! ## The network -/

section Network

variable [DecidableEq ι] {cfgs : ι → StakerConfig} {headers : Set Header}
  {good : Procs.Config ι (Traffic ι) (StakerActor Sealed Unsealed) →
    (ι × ActorEvent Sealed) ⊕ Message → Prop}
  {c : Procs.Config ι (Traffic ι) (StakerActor Sealed Unsealed)}

/-- A staker's node lives on its own. -/
theorem stakers_lives (hc : ((M.stakers genesis cfgs).lts.guard good).Reachable c) (i : ι) :
    (Lts.ofNext (· = M.freshNode genesis) (M.lifeStep genesis (cfgs i))).Reachable
      (c.procs i).node := by
  let node : StakerActor Sealed Unsealed → Node Sealed Unsealed := StakerActor.node
  suffices hlocal : (Lts.ofNext (· = M.freshNode genesis) (M.lifeStep genesis (cfgs i))).Reachable
      (node (c.procs i)) from hlocal
  refine Procs.local_reachable i ?_ ?_ (fun _ _ => rfl) hc
  · show M.freshNode genesis = M.freshNode genesis
    rfl
  · intro c e t' a' _ hstep
    have hstep' : M.actorStep genesis cfgs i e c.shared (c.procs i) = some (t', a') := hstep
    have hcases := actorStep_cases hstep'
    generalize c.procs i = a at hcases
    cases hcases with
    | @node e _ _ hnode => exact Or.inr ⟨.node e, hnode⟩
    | restart hrestart => exact Or.inr ⟨.restart, hrestart⟩
    | stored => exact Or.inl rfl
    | unanswered => exact Or.inl rfl
    | gathered => exact Or.inl rfl
    | block => exact Or.inl rfl

theorem stakers_propose (hB : M.BuildsStates) (hC : M.ChecksHeader) (hP : M.BuildsBlocks)
    (hc : ((M.stakers genesis cfgs).lts.guard good).Reachable c) (i : ι) :
    M.NodeOk genesis (c.procs i).node ∧ M.ProposesOk genesis (c.procs i).node := by
  refine (stakers_lives hc i).invariant (I := fun n => M.NodeOk genesis n ∧ M.ProposesOk genesis n)
    ?_ ?_
  · rintro n rfl
    refine ⟨⟨.fresh, fun _ => trivial, trivial, fun _ _ _ hround => by cases hround⟩, ?_⟩
    exact ⟨Or.inl (Mempool.follows_new _), fun hround => by cases hround⟩
  · rintro n e n' ⟨hok, hproposes⟩ hstep
    have hlife : M.lifeStep genesis (cfgs i) n e = some n' := hstep
    cases e with
    | node e => exact ⟨hok.nodeStep hB hlife, hproposes.nodeStep hB hC hP hok hlife⟩
    | restart => exact ⟨hok.restart hB hlife, .restart hlife⟩

/-- Headers tell the blocks that the stakers have stored. -/
def HeadersTell (c : Procs.Config ι (Traffic ι) (StakerActor Sealed Unsealed)) : Prop :=
  ∀ {i j : ι} {h : Nat} {blk blk' : Block}, (c.procs i).node.storage.shared.db.block? h = some blk →
    (c.procs j).node.storage.shared.db.block? h = some blk' → blk.header = blk'.header → blk = blk'

/-- **Rounds of one height have one base state.** -/
theorem baseState_eq (hM : M.EnumeratesStakes) (hB : M.BuildsStates) (hC : M.ChecksHeader)
    (hsigns : M.SignsHeaders cfgs headers)
    (hc : ((M.stakers genesis cfgs).lts.guard (M.Sound cfgs headers)).Reachable c)
    (hfew : M.FewUntrusted genesis cfgs c) (hstakes : M.StakesTold genesis c)
    (hblocks : HeadersTell c) {i j : ι} {baseState baseState' : Sealed}
    (hi : M.ReadingOk genesis (c.procs i).node.storage.shared.db (.done baseState))
    (hj : M.ReadingOk genesis (c.procs j).node.storage.shared.db (.done baseState'))
    (hheight : (M.header baseState).height = (M.header baseState').height) :
    baseState = baseState' := by
  have hactors := ((stakers_outline hB hC hsigns).reachable hc).2
  have hwf : ∀ k, M.WellFormed genesis (c.procs k).node.storage.shared.db :=
    fun k => (hactors k).node.shared.chain.wellFormed hB
  obtain ⟨h, hle, hs⟩ := hi
  obtain ⟨h', hle', hs'⟩ := hj
  obtain rfl : h = h' := by
    rw [← (hwf i).stateAt_height hB hs, ← (hwf j).stateAt_height hB hs', hheight]
  have hsame := SameBlocksTo.of_headers (hwf i) (hwf j) hle hle' fun _ hblk hblk' =>
    hblocks hblk hblk' (header_eq_of_few hB hsigns hactors (stakers_quorumStored hM hB hc) hfew
      hstakes i j _ hblk hblk')
  rw [hsame.stateAt (hwf i) (hwf j), hs'] at hs
  exact (Except.ok.inj hs).symm

/-- **Rounds that can talk agree on what they decide about.** In every run of a network of stakers as
in `stakers_agree` whose headers tell their blocks: if two stakers are in rounds of one nonce, these
have the same base state and so the same vote weights, and `verify_proposal` of each accepts what
`generate_proposal` of the other returns. -/
theorem rounds_alike (hM : M.EnumeratesStakes) (hB : M.BuildsStates) (hC : M.ChecksHeader)
    (hP : M.BuildsBlocks) {ω : Type} {code : BlockCode ω}
    (hcode : ∀ blk, code.decode (code.encode blk) = some blk) (hsigns : M.SignsHeaders cfgs headers)
    (hc : ((M.stakers genesis cfgs).lts.guard (M.Sound cfgs headers)).Reachable c)
    (hfew : M.FewUntrusted genesis cfgs c) (hstakes : M.StakesTold genesis c)
    (hblocks : HeadersTell c) {i j : ι} {inner inner' : StakerInner Sealed}
    (hi : M.stakerInner (c.procs i).node.round = some inner)
    (hj : M.stakerInner (c.procs j).node.round = some inner') (hnonce : inner.nonce = inner'.nonce) :
    inner.baseState = inner'.baseState ∧
      M.voteWeights inner.baseState = M.voteWeights inner'.baseState ∧
      M.verifyProposalBytes code inner'.baseState (generateProposal code inner.myProposal) = true := by
  obtain ⟨hok, hproposes⟩ := stakers_propose hB hC hP hc i
  have hround := hok.round
  have hround' := (stakers_propose hB hC hP hc j).1.round
  cases heq : (c.procs i).node.round with
  | deciding baseState myProposal =>
    cases heq' : (c.procs j).node.round with
    | deciding baseState' myProposal' =>
      rw [heq] at hi hround
      rw [heq'] at hj hround'
      cases hi
      cases hj
      obtain rfl := baseState_eq hM hB hC hsigns hc hfew hstakes hblocks hround hround' hnonce
      refine ⟨rfl, rfl, ?_⟩
      simp only [verifyProposalBytes, generateProposal, hcode]
      exact hproposes.proposal heq
    | _ =>
      rw [heq'] at hj
      cases hj
  | _ =>
    rw [heq] at hi
    cases hi

end Network

end Melstf

/-! ## Two stakers after the first block -/

namespace Ledger

/-- After the first block some stakers begin streamlette on it. -/
def onFirst (stakers : List (Fin 3)) : List NetEvent :=
  agreeing ++ stakers.flatMap fun i =>
    nodeSteps i [.staker (.read false), .staker (.read false), .staker (.read false), .staker .wait,
      .staker .propose]

theorem onFirst_reachable : ((ledger.stakers threeStakers stakerOf).lts.guard
    (ledger.Sound stakerOf {(firstBlock 1).header})).Reachable (netAfter (onFirst [0, 1])) := by
  have hrun : ((ledger.stakers threeStakers stakerOf).lts.guard
      fun c label => insiders c label = true).Reaches netStart (netAfter (onFirst [0, 1])) :=
    Procs.reaches_end_guarded (by with_unfolding_all decide)
  exact ⟨netStart, ⟨rfl, rfl⟩, hrun.guard_mono insiders_sound⟩

theorem onFirst_oneTable : OneTable (netAfter (onFirst [0, 1])) := by
  unfold OneTable
  with_unfolding_all decide

theorem onFirst_heights (i : Fin 3) :
    ((netAfter (onFirst [0, 1])).procs i).node.storage.shared.db.highestHeight ≤ 1 := by
  revert i
  with_unfolding_all decide

theorem onFirst_few : ledger.FewUntrusted threeStakers stakerOf (netAfter (onFirst [0, 1])) :=
  onFirst_oneTable.few onFirst_reachable onFirst_heights (by with_unfolding_all decide)
    (by with_unfolding_all decide)

theorem onFirst_headersTell : Melstf.HeadersTell (netAfter (onFirst [0, 1])) := by
  have hfirst : ∀ i, ∀ blk ∈ ((netAfter (onFirst [0, 1])).procs i).node.storage.shared.db.block? 1,
      blk = firstBlock 1 := by
    with_unfolding_all decide
  have hstored : ∀ {i h blk}, ((netAfter (onFirst [0, 1])).procs i).node.storage.shared.db.block? h =
      some blk → blk = firstBlock 1 := by
    intro i h blk hblk
    obtain ⟨hpos, hle⟩ := (stakers_wellFormed onFirst_reachable i).block_le hblk
    obtain rfl : h = 1 := Nat.le_antisymm (Nat.le_trans hle (onFirst_heights i)) hpos
    exact hfirst i blk hblk
  intro i j h blk blk' hblk hblk' _
  rw [hstored hblk, hstored hblk']

end Ledger

namespace Melstf

/-- Both propose a block of height 2 on the first block. -/
theorem rounds_alike_second :
    let c := Ledger.netAfter (Ledger.onFirst [0, 1])
    ∃ inner inner', ledger.stakerInner (c.procs 0).node.round = some inner ∧
      ledger.stakerInner (c.procs 1).node.round = some inner' ∧ inner.nonce = 1 ∧
      inner.baseState = inner'.baseState ∧
      ledger.voteWeights inner.baseState = ledger.voteWeights inner'.baseState ∧
      ledger.verifyProposalBytes Ledger.blockCode inner'.baseState
        (generateProposal Ledger.blockCode inner.myProposal) = true := by
  intro c
  have hnonces : ((ledger.stakerInner (c.procs 0).node.round).map StakerInner.nonce,
      (ledger.stakerInner (c.procs 1).node.round).map StakerInner.nonce) = (some 1, some 1) := by
    with_unfolding_all decide
  obtain ⟨hnonce, hnonce'⟩ := Prod.mk.inj hnonces
  obtain ⟨inner, hi, hone⟩ := Option.map_eq_some_iff.mp hnonce
  obtain ⟨inner', hj, hone'⟩ := Option.map_eq_some_iff.mp hnonce'
  exact ⟨inner, inner', hi, hj, hone, rounds_alike ledger_enumerates ledger_builds ledger_checks
    ledger_proposes (fun blk => Ledger.blockCode_decode blk) (Ledger.signsHeaders_single _)
    Ledger.onFirst_reachable Ledger.onFirst_few Ledger.onFirst_oneTable.told
    Ledger.onFirst_headersTell hi hj (hone.trans hone'.symm)⟩

end Melstf

end Melnode
