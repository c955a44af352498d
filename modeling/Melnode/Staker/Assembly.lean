import Melnode.Staker.Agreement
import Melnode.Storage.Blocks

/-!
# Proofs that the stakers assemble among themselves

Where streamlette decides one block for each height and nobody but the stakers answers, every
signature in a gathered map, on its way or beside a stored block is a valid one over the block decided
for its height (`AssembledOk`). So what `get_proof` counts is a quorum of valid signatures, and a
staker that gathers is done with one reply of a staker that has the height stored.
-/

namespace Melnode

open Lib

variable {Sealed Unsealed ι : Type}

namespace Melstf

section Definitions

variable (M : Melstf Sealed Unsealed) (decided : Nat → Block)

/-- Streamlette decides `decided` at each height, and only stakers send. -/
def Agreed (_ : Procs.Config ι (Traffic ι) (StakerActor Sealed Unsealed)) :
    (ι × ActorEvent Sealed) ⊕ Message → Prop
  | .inl (_, .node (.staker (.decide decision))) => decision = decided decision.header.height
  | .inr _ => False
  | _ => True

/-- Every entry is a valid signature over the block decided for the height. -/
def SignedAt (height : Nat) (map : ConsensusProof) : Prop :=
  M.AllVerify (M.headerHash (decided height).header) map

/-- The block decided for its height, with valid signatures only. -/
def Decided (blk : Block) (cproof : ConsensusProof) : Prop :=
  blk = decided blk.header.height ∧ M.SignedAt decided blk.header.height cproof

end Definitions

variable {M : Melstf Sealed Unsealed} {genesis : GenesisConfig} {cfg : ι → StakerConfig}
  {decided : Nat → Block}

section Maps

variable {height : Nat} {map reply : ConsensusProof}

theorem SignedAt.empty : M.SignedAt decided height ∅ :=
  fun _ _ hsig => absurd hsig Table.getElem?_empty_ne

theorem SignedAt.merge (h : M.SignedAt decided height map)
    (hreply : M.SignedAt decided height reply) :
    M.SignedAt decided height (mergeReply map reply) := by
  intro pk sig hsig
  rw [getElem?_mergeReply] at hsig
  rcases Option.or_eq_some_iff.mp hsig with hin | ⟨-, hold⟩
  · exact hreply pk sig hin
  · exact h pk sig hold

theorem SignedAt.own {c : StakerConfig} {decision : Block}
    (hsign : ∀ hash, M.verify c.publicKey hash (c.sign hash) = true)
    (heq : decision = decided decision.header.height) :
    M.SignedAt decided decision.header.height
      ((∅ : ConsensusProof).insert c.publicKey (c.sign (M.headerHash decision.header))) := by
  intro pk sig hsig
  rw [← heq]
  rcases Table.of_getElem?_insert hsig with ⟨rfl, rfl⟩ | hsig
  · exact hsign _
  · exact absurd hsig Table.getElem?_empty_ne

end Maps

/-! ## The invariant -/

/-- What is sent belongs to the decided blocks. -/
structure SentOk (M : Melstf Sealed Unsealed) (decided : Nat → Block) (t : Traffic ι) : Prop where
  sigs : ∀ height reply, .sigs height reply ∈ t.sent → M.SignedAt decided height reply
  block : ∀ blk cproof, .block blk cproof ∈ t.sent → M.Decided decided blk cproof

/-- What is known of a staker among stakers that agree. -/
structure AssembledOk (M : Melstf Sealed Unsealed) (genesis : GenesisConfig) (cfg : ι → StakerConfig)
    (decided : Nat → Block) (_ : Traffic ι) (i : ι) (a : StakerActor Sealed Unsealed) : Prop where
  node : M.NodeOk genesis a.node
  carried : Carries (M.Decided decided) a.node.storage
  gathered : ∀ (height : Nat) (map : ConsensusProof), a.node.sigGather[height]? = some map →
    M.SignedAt decided height map
  round : ∀ baseState decision, a.node.round = .gathering baseState decision →
    decision = decided decision.header.height
  gather : M.GatherOk (cfg i) a.node

section Steps

variable {i : ι} {t t' : Traffic ι} {a a' : StakerActor Sealed Unsealed}

/-- The decision of a gathering round is for the next height. -/
theorem gathering_height (hC : M.ChecksHeader) {n : Node Sealed Unsealed}
    (hok : M.NodeOk genesis n) {baseState : Sealed} {decision : Block}
    (hround : n.round = .gathering baseState decision) :
    decision.header.height = M.nextHeight baseState := by
  have h := hok.round
  rw [hround] at h
  exact decision_height hC h.2

theorem SentOk.send_sigs (h : M.SentOk decided t) {height : Nat} {reply : ConsensusProof}
    (hreply : M.SignedAt decided height reply) : M.SentOk decided (t.send (.sigs height reply)) := by
  refine ⟨fun k r hmem => ?_, fun blk cproof hmem => ?_⟩
  · rcases List.mem_cons.mp hmem with heq | hmem
    · cases heq
      exact hreply
    · exact h.sigs k r hmem
  · rcases List.mem_cons.mp hmem with heq | hmem
    · cases heq
    · exact h.block blk cproof hmem

theorem SentOk.send_block (h : M.SentOk decided t) {blk : Block} {cproof : ConsensusProof}
    (hblk : M.Decided decided blk cproof) : M.SentOk decided (t.send (.block blk cproof)) := by
  refine ⟨fun k r hmem => ?_, fun b proof hmem => ?_⟩
  · rcases List.mem_cons.mp hmem with heq | hmem
    · cases heq
    · exact h.sigs k r hmem
  · rcases List.mem_cons.mp hmem with heq | hmem
    · cases heq
      exact hblk
    · exact h.block b proof hmem

/-- A stored proof belongs to the block decided for its height. -/
theorem AssembledOk.stored (hB : M.BuildsStates) (h : M.AssembledOk genesis cfg decided t i a)
    {height : Nat} {proof : ConsensusProof}
    (hproof : a.node.storage.shared.db.consensusProofs[height]? = some proof) :
    a.node.storage.shared.db.block? height = some (decided height) ∧
      M.SignedAt decided height proof := by
  have hwf := h.node.shared.chain.wellFormed hB
  have hmem : height ∈ a.node.storage.shared.db.consensusProofs := by
    rw [Std.ExtTreeMap.mem_iff_isSome_getElem?, hproof]
    rfl
  have hheight := (hwf.height_mem height).mp ((hwf.proof_mem height).mp hmem)
  obtain ⟨blk, hblk⟩ := hwf.block_isSome hheight.1 hheight.2
  obtain ⟨heq, hsigned⟩ := h.carried.rows hblk hproof
  rw [hwf.block_height hblk] at heq hsigned
  rw [← heq]
  exact ⟨hblk, hsigned⟩

theorem AssembledOk.block_eq (hB : M.BuildsStates) (h : M.AssembledOk genesis cfg decided t i a)
    {height : Nat} {blk : Block} (hblk : a.node.storage.shared.db.block? height = some blk) :
    blk = decided height := by
  obtain ⟨proof, hproof⟩ := (h.node.shared.chain.wellFormed hB).proof_of_block hblk
  have hsome := (h.stored hB hproof).1
  rw [hblk] at hsome
  exact Option.some.inj hsome

/-- What a staker has at hand for a height. -/
theorem AssembledOk.at_hand (h : M.AssembledOk genesis cfg decided t i a) (height : Nat) :
    M.SignedAt decided height (a.node.sigGather[height]?.getD ∅) := by
  cases hmap : a.node.sigGather[height]? with
  | none => exact SignedAt.empty
  | some map => exact h.gathered height map hmap

/-- The votes that a staker counts stay votes of valid signatures. -/
theorem AssembledOk.gather_step (hC : M.ChecksHeader)
    (hsign : ∀ i hash, M.verify (cfg i).publicKey hash ((cfg i).sign hash) = true)
    (hsent : M.SentOk decided t) (hok : M.AssembledOk genesis cfg decided t i a)
    {e : NodeEvent Sealed} {n' : Node Sealed Unsealed} (hhears : M.hears t.sent a.node.round e = true)
    (hnode : M.nodeStep genesis (cfg i) a.node e = some n') : M.GatherOk (cfg i) n' := by
  cases e with
  | storage label =>
    obtain ⟨-, storage, hexec, rfl⟩ := nodeStep_storage_eq hnode
    refine ⟨hok.gather.gathering, fun h => ?_⟩
    obtain ⟨cproof, phase, hcall, hquorum⟩ := hok.gather.applying h
    obtain ⟨phase', hcall'⟩ := exec_made hexec hcall
    exact ⟨cproof, phase', hcall', hquorum⟩
  | staker e =>
    refine (stakerStep_cases hnode).2.gather hC (hsign i) hok.node ?_ hok.gather
    -- what is merged verifies over the decision
    cases e with
    | merge reply =>
      cases hround : a.node.round with
      | gathering baseState decision =>
        have hreply := hsent.sigs _ _ (hears_merge hhears hround)
        rw [← gathering_height hC hok.node hround] at hreply
        have hdecided := hok.round _ _ hround
        unfold SignedAt at hreply
        rw [← hdecided] at hreply
        simp only [repliesVerify, hround, List.all_eq_true, decide_eq_true_eq]
        intro entry hentry _
        exact hreply entry.1 entry.2 (Std.ExtTreeMap.mem_toList_iff_getElem?_eq_some.mp hentry)
      | _ => simp [repliesVerify, hround]
    | _ => rfl

variable [DecidableEq ι]

/-- **One step of a staker** among stakers that agree. -/
theorem ActorStep.assembled (hB : M.BuildsStates) (hC : M.ChecksHeader)
    (hsign : ∀ i hash, M.verify (cfg i).publicKey hash ((cfg i).sign hash) = true)
    {e : ActorEvent Sealed} (hstep : M.ActorStep genesis cfg i t a e t' a')
    (hdecides : ∀ decision, e = .node (.staker (.decide decision)) →
      decision = decided decision.header.height)
    (hsent : M.SentOk decided t) (hok : M.AssembledOk genesis cfg decided t i a) :
    M.SentOk decided t' ∧ M.AssembledOk genesis cfg decided t' i a' := by
  cases hstep with
  | @node e node hhears hnode =>
    refine ⟨⟨hsent.sigs, hsent.block⟩, hok.node.nodeStep hB hnode, ?_, ?_, ?_,
      hok.gather_step hC hsign hsent hhears hnode⟩
    · refine hok.carried.nodeStep hB hok.node hnode ?_ ?_
      · rintro k blk cproof rfl
        exact hsent.block blk cproof (hears_invoke hhears)
      · rintro baseState decision cproof hround rfl
        exact ⟨hok.round _ _ hround, hok.at_hand _⟩
    · refine nodeStep_sigGather hnode hok.gathered ?_ ?_
      · rintro decision rfl
        exact SignedAt.own (hsign i) (hdecides _ rfl)
      · rintro baseState decision reply rfl hround
        exact (hok.at_hand _).merge (hsent.sigs _ _ (hears_merge hhears hround))
    · intro baseState decision hround
      rcases nodeStep_gathering hnode hround with hold | rfl
      · exact hok.round _ _ hold
      · exact hdecides _ rfl
  | restart hrestart =>
    have hnode' := hok.node.restart hB hrestart
    have hcarried := hok.carried.restart hB hok.node hrestart
    obtain ⟨storage, -, rfl⟩ := restart_cases hrestart
    exact ⟨hsent, hnode', hcarried, fun height map hmap => absurd hmap Table.getElem?_empty_ne, nofun,
      .of_round nofun nofun⟩
  | stored hproof =>
    exact ⟨hsent.send_sigs (hok.stored hB hproof).2, hok.node, hok.carried, hok.gathered, hok.round,
      hok.gather⟩
  | unanswered => exact ⟨hsent, hok.node, hok.carried, hok.gathered, hok.round, hok.gather⟩
  | gathered =>
    exact ⟨hsent.send_sigs (hok.at_hand _), hok.node, hok.carried, hok.gathered, hok.round,
      hok.gather⟩
  | block hblk hproof =>
    exact ⟨hsent.send_block (hok.carried.rows hblk hproof), hok.node, hok.carried, hok.gathered,
      hok.round, hok.gather⟩

theorem assembly_outline (hB : M.BuildsStates) (hC : M.ChecksHeader)
    (hsign : ∀ i hash, M.verify (cfg i).publicKey hash ((cfg i).sign hash) = true)
    {good : Procs.Config ι (Traffic ι) (StakerActor Sealed Unsealed) →
      (ι × ActorEvent Sealed) ⊕ Message → Prop}
    (hgood : ∀ c label, good c label → Agreed decided c label) :
    (M.stakers genesis cfg).Outline good (M.SentOk decided) (M.AssembledOk genesis cfg decided)
      fun _ _ _ => True where
  init := by
    rintro t rfl
    exact ⟨nofun, nofun⟩
  start := by
    rintro t i rfl
    exact ⟨(freshNode_opened.ok hB).1, .fresh,
      fun height map hmap => absurd hmap Table.getElem?_empty_ne, nofun, .of_round nofun nofun⟩
  step := by
    intro c i e t' a' _ hg hsent hok hstep
    have hdecides : ∀ decision, e = .node (.staker (.decide decision)) →
        decision = decided decision.header.height := by
      rintro decision rfl
      exact hgood _ _ hg
    obtain ⟨hsent', hok'⟩ := (actorStep_cases hstep).assembled hB hC hsign hdecides hsent hok
    exact ⟨hsent', hok', trivial⟩
  stable _ _ _ hok := ⟨hok.node, hok.carried, hok.gathered, hok.round, hok.gather⟩
  env _ hg := (hgood _ _ hg).elim

end Steps

section Runs

/-- Within an epoch a decision with a quorum of valid signatures passes the checks on its base state. -/
theorem checkBlock_of_quorum (hM : M.EnumeratesStakes) (hC : M.ChecksHeader) {baseState : Sealed}
    {decision : Block} {cproof : ConsensusProof} (hverify : M.verifyProposal baseState decision = true)
    (hepoch : M.epoch (M.header baseState).height = M.epoch decision.header.height)
    (hfit : M.VotesFit (M.rawStakes baseState) (M.epoch decision.header.height)
      (M.headerHash decision.header) cproof)
    (hquorum : M.QuorumVerifies baseState decision cproof) :
    ∃ s, M.checkBlock baseState decision cproof = .ok s := by
  obtain ⟨s, hs⟩ := verifyProposal_iff.mp hverify
  refine ⟨s, checkBlock_ok_iff.mpr ⟨decision_height hC hverify, ?_, hs⟩⟩
  refine HasQuorum.voteCheck hM hfit ?_
  unfold QuorumVerifies at hquorum
  unfold HasQuorum
  rw [hepoch] at hquorum
  omega

variable [DecidableEq ι] {c : Procs.Config ι (Traffic ι) (StakerActor Sealed Unsealed)}

/-- **Assembled proofs hold.** In every run of a network of stakers whose decisions agree and where
nobody else sends: every stored block is the one decided for its height, every signature gathered or
stored for a height is a valid one over that block, and when a staker has given its proof to
`apply_block`, valid signatures of more than two thirds of the stake are in it; so within an epoch the
checks of `apply_block` pass on the base state. -/
theorem proofs_assemble (hM : M.EnumeratesStakes) (hB : M.BuildsStates) (hC : M.ChecksHeader)
    (hsign : ∀ i hash, M.verify (cfg i).publicKey hash ((cfg i).sign hash) = true)
    (hc : ((M.stakers genesis cfg).lts.guard (Agreed decided)).Reachable c) (i : ι) :
    let n := (c.procs i).node
    (∀ h blk, n.storage.shared.db.block? h = some blk → blk = decided h) ∧
      (∀ (h : Nat) (map : ConsensusProof), n.sigGather[h]? = some map ∨
        n.storage.shared.db.consensusProofs[h]? = some map →
        M.AllVerify (M.headerHash (decided h).header) map) ∧
      ∀ baseState decision k, n.round = .applying baseState decision k →
        ∃ cproof phase, n.storage.procs k = .made decision cproof phase ∧
          M.QuorumVerifies baseState decision cproof ∧
          (M.epoch (M.header baseState).height = M.epoch decision.header.height →
            M.VotesFit (M.rawStakes baseState) (M.epoch decision.header.height)
              (M.headerHash decision.header) cproof →
            ∃ s, M.checkBlock baseState decision cproof = .ok s) := by
  have hok := ((assembly_outline hB hC hsign fun _ _ h => h).reachable hc).2 i
  refine ⟨fun h blk hblk => hok.block_eq hB hblk, fun h map hmap => ?_,
    fun baseState decision k hround => ?_⟩
  · rcases hmap with hmap | hproof
    · exact hok.gathered h map hmap
    · exact (hok.stored hB hproof).2
  · obtain ⟨cproof, phase, hcall, hquorum⟩ := hok.gather.applying hround
    refine ⟨cproof, phase, hcall, hquorum, fun hepoch hfit => ?_⟩
    have hr := hok.node.round
    rw [hround] at hr
    exact checkBlock_of_quorum hM hC hr.2 hepoch hfit hquorum

/-! ## One reply is enough -/

/-- Where no sum overflows, the votes are summed. -/
theorem sumVotes_eq {ε : Type} {stakes : StakeSet} {epoch : Nat} :
    ∀ {keys : List Ed25519PK} {sum : Nat},
      sum + (keys.map (stakes.votes epoch)).sum < u128Bound →
      (sumVotes stakes epoch keys sum : Except (Fault ε) Nat) =
        .ok (sum + (keys.map (stakes.votes epoch)).sum) := by
  intro keys
  induction keys with
  | nil =>
    intro sum _
    rfl
  | cons pk keys ih =>
    intro sum hfit
    rw [List.map_cons, List.sum_cons, ← Nat.add_assoc] at hfit ⊢
    have hfirst : sum + stakes.votes epoch pk < u128Bound := by omega
    have hrest := ih hfit
    simp only [sumVotes, checkedAdd, if_pos hfirst, bind, Except.bind]
    exact hrest

/-- `get_proof` returns a map whose keys hold more than two thirds of the stake. -/
theorem getProof_of_quorum {ε : Type} {baseState : Sealed} {map : ConsensusProof}
    (hfit : 2 * (M.rawStakes baseState).totalVotes (M.epoch (M.header baseState).height) < u128Bound)
    (hquorum : 2 * (M.rawStakes baseState).totalVotes (M.epoch (M.header baseState).height) <
      3 * activeStake (M.rawStakes baseState).docs (M.epoch (M.header baseState).height)
        fun pk => map.keys.contains pk) :
    (M.getProof baseState map : Except (Fault ε) (Option ConsensusProof)) = .ok (some map) := by
  have hle := activeStake_mono (M.rawStakes baseState).docs
    (M.epoch (M.header baseState).height) (p := fun pk => map.keys.contains pk)
    (q := fun _ => true) fun _ _ => rfl
  have htotal : activeStake (M.rawStakes baseState).docs (M.epoch (M.header baseState).height)
      (fun _ => true) =
        (M.rawStakes baseState).totalVotes (M.epoch (M.header baseState).height) := rfl
  have hvotes := sum_votes_keys (M.rawStakes baseState) (M.epoch (M.header baseState).height) map
  have hsum : (sumVotes (M.rawStakes baseState) (M.epoch (M.header baseState).height) map.keys 0 :
      Except (Fault ε) Nat) = .ok (0 + (map.keys.map
        ((M.rawStakes baseState).votes (M.epoch (M.header baseState).height))).sum) :=
    sumVotes_eq (by omega)
  have htwice : (M.rawStakes baseState).totalVotes (M.epoch (M.header baseState).height) * 2 <
      u128Bound := by omega
  simp only [getProof, voteThreshold, checkedMul, if_pos htwice, bind, Except.bind, pure,
    Except.pure, hsum, Nat.zero_add, hvotes]
  rw [if_pos (by omega)]

/-- The checks that accept a block are harmless at every staker. -/
def HarmlessChecks (M : Melstf Sealed Unsealed)
    (c : Procs.Config ι (Traffic ι) (StakerActor Sealed Unsealed)) :
    (ι × ActorEvent Sealed) ⊕ Message → Prop
  | .inl (i, .node (.storage label)) =>
    M.ChecksMeet M.HarmlessCheck (c.procs i).node.storage label
  | _ => True

end Runs

end Melstf

/-! ## The three stakers -/

namespace Ledger

/-- Nobody outside takes part and only the first block is decided. -/
theorem insiders_agreed (c : Net) (label : NetEvent) (h : insiders c label = true) :
    Melstf.Agreed (fun _ => firstBlock 1) c label ∧ ledger.HarmlessChecks c label := by
  unfold insiders at h
  split at h
  · have hmeet : ledger.ChecksMeet ledger.HarmlessCheck _ _ := of_decide_eq_true h
    exact ⟨trivial, hmeet⟩
  · have hfirst := of_decide_eq_true h
    exact ⟨hfirst, trivial⟩
  · cases h
  · next hstorage hdecide hmessage =>
    refine ⟨?_, ?_⟩
    · unfold Melstf.Agreed
      split
      · exact absurd rfl (hdecide _ _)
      · exact absurd rfl (hmessage _)
      · trivial
    · unfold Melstf.HarmlessChecks
      split
      · exact absurd rfl (hstorage _ _)
      · trivial

theorem netAfter_reachable (labels : List NetEvent)
    (h : (Lts.runGuarded (ledger.stakers threeStakers stakerOf).exec
      (fun c label => insiders c label = true) netStart labels).isSome) :
    ((ledger.stakers threeStakers stakerOf).lts.guard
      fun c label => insiders c label = true).Reachable (netAfter labels) :=
  ⟨netStart, ⟨rfl, rfl⟩, Procs.reaches_end_guarded h⟩

end Ledger

namespace Melstf

/-- The first staker's call, about to be checked. -/
theorem proofs_assemble_submits :
    let n := ((Ledger.netAfter Ledger.oneSubmits).procs 0).node
    (∀ h blk, n.storage.shared.db.block? h = some blk → blk = Ledger.firstBlock 1) ∧
      (∀ (h : Nat) (map : ConsensusProof), n.sigGather[h]? = some map ∨
        n.storage.shared.db.consensusProofs[h]? = some map →
        ledger.AllVerify (ledger.headerHash (Ledger.firstBlock 1).header) map) ∧
      ∀ baseState decision k, n.round = .applying baseState decision k →
        ∃ cproof phase, n.storage.procs k = .made decision cproof phase ∧
          ledger.QuorumVerifies baseState decision cproof ∧
          (ledger.epoch (ledger.header baseState).height = ledger.epoch decision.header.height →
            ledger.VotesFit (ledger.rawStakes baseState) (ledger.epoch decision.header.height)
              (ledger.headerHash decision.header) cproof →
            ∃ s, ledger.checkBlock baseState decision cproof = .ok s) := by
  have hrun := Ledger.netAfter_reachable Ledger.oneSubmits (by with_unfolding_all decide)
  exact proofs_assemble ledger_enumerates ledger_builds ledger_checks
    (fun _ _ => beq_self_eq_true _)
    (hrun.guard_mono fun c label h => (Ledger.insiders_agreed c label h).1) 0

end Melstf

end Melnode
