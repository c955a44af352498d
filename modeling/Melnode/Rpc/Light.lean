import Melnode.Rpc.Caches
import Melnode.Storage.Forks
import Melnode.Sync.Shape

/-!
# What a light client is told

A light client asks a node for a header with its proof (`get_summary` or `get_abbr_block`) and for the
stakers of the state below it (`get_stakers_raw`). Whenever the node answers the two, the signatures in
the proof are of more than two thirds of the stake it has told (`told_quorum`); so two nodes that tell
different headers for one height convict stakers with more than a third of it (`told_accountable`).
-/

namespace Melnode

open Lib

variable {Sealed Unsealed Tree ω ι : Type}

/-- The header and the proof that a reply tells. -/
def Reply.told? : Reply ω → Option (Header × ConsensusProof)
  | .abbrBlock (some (abbr, proof)) => some (abbr.header, proof)
  | .summary res => some (res.header, res.proof)
  | _ => none

/-- Two quorums of keys share more than a third of the stake. -/
theorem third_lt_activeStake_and {docs : List StakeDoc} {epoch : Nat} {p q : Ed25519PK → Bool}
    (hp : 2 * activeStake docs epoch (fun _ => true) < 3 * activeStake docs epoch p)
    (hq : 2 * activeStake docs epoch (fun _ => true) < 3 * activeStake docs epoch q) :
    activeStake docs epoch (fun _ => true) < 3 * activeStake docs epoch fun pk => p pk && q pk := by
  have hactive : ∀ r : Ed25519PK → Bool, ∀ d ∈ docs, (d.activeIn epoch && r d.pubkey) = true →
      (d.activeIn epoch && true) = true := by
    intro r d _ hd
    rw [Bool.and_true]
    exact (Bool.and_eq_true_iff.mp hd).1
  have hmany := third_lt_weigh_and StakeDoc.symsStaked (hactive p) (hactive q) hp hq
  refine Nat.lt_of_lt_of_le hmany (Nat.mul_le_mul_left 3 (weigh_mono _ fun d _ hd => ?_))
  obtain ⟨hd₁, hd₂⟩ := Bool.and_eq_true_iff.mp hd
  simp only [Bool.and_eq_true] at hd₁ hd₂ ⊢
  exact ⟨hd₁.1, hd₁.2, hd₂.2⟩

namespace NodeRpc

variable (N : NodeRpc Sealed Unsealed Tree ω)

/-- The stake documents that `get_stakers_raw` tells. -/
def toldDocs (stakers : Table HashVal Bytes) : List StakeDoc :=
  stakers.toList.filterMap fun kv => N.melstf.decodeStakeDoc kv.2

/-- What the encodings of `get_stakers_raw` keep: hashes stay apart, and documents decode. -/
structure KeepsStakers : Prop where
  rehash_inj : Function.Injective N.rehash
  decodes : ∀ doc, N.melstf.decodeStakeDoc (N.stakeDocBytes doc) = some doc

variable {N}

/-! ## What the replies are read from -/

section Read

variable {db : Tables}

/-- The stakers of a state. -/
def stakersOf (N : NodeRpc Sealed Unsealed Tree ω) (stakes : StakeSet) : Table HashVal Bytes :=
  stakes.toList.foldl (fun acc kv => acc.insert (N.rehash kv.1) (N.stakeDocBytes kv.2)) ∅

/-- The documents told are those of the state. -/
theorem toldDocs_perm (hkeeps : N.KeepsStakers) (stakes : StakeSet) :
    (N.toldDocs (N.stakersOf stakes)).Perm stakes.docs := by
  have hrows : (N.stakersOf stakes).toList.Perm
      (stakes.toList.map fun kv => (N.rehash kv.1, N.stakeDocBytes kv.2)) := by
    have hkeys : ((stakes.toList.map fun kv => (N.rehash kv.1, N.stakeDocBytes kv.2)).map
        Prod.fst).Nodup := by
      have hmapped := (Table.nodup_keys_toList stakes).map hkeeps.rehash_inj
      rw [List.map_map] at hmapped ⊢
      exact hmapped
    have hperm := Table.toList_foldl_insert hkeys
    rwa [List.foldl_map] at hperm
  have hdecodes : (stakes.toList.map fun kv => (N.rehash kv.1, N.stakeDocBytes kv.2)).filterMap
      (fun kv => N.melstf.decodeStakeDoc kv.2) = stakes.docs := by
    simp only [List.filterMap_map, Function.comp_def, hkeeps.decodes, List.filterMap_eq_map']
    rfl
  unfold toldDocs
  rw [← hdecodes]
  exact hrows.filterMap _

/-- The stakers told are those of a state that is stored. -/
theorem stakersRaw_eval (hwf : N.melstf.WellFormed N.genesis db) {height : Nat}
    {stakers : Table HashVal Bytes}
    (h : (N.body (.getStakersRaw height) : Rpc Tree ι (Reply ω)).eval (N.uncached db) =
      some (.stakersRaw (some stakers))) :
    ∃ s, height ≤ db.highestHeight ∧ N.melstf.stateAt N.genesis db height = .ok s ∧
      stakers = N.stakersOf (N.melstf.rawStakes s) := by
  unfold body at h
  obtain ⟨res, hres, heq⟩ := Prog.eval_map_eq_some.mp h
  cases heq
  cases hget : N.melstf.getState N.genesis db height with
  | error site =>
    simp only [getStakersRaw, Prog.eval_bind, eval_getState, hget, Except.toOption,
      Option.bind_none, reduceCtorEq] at hres
  | ok state =>
    simp only [getStakersRaw, Prog.eval_bind, eval_getState, hget, Except.toOption,
      Option.bind_some] at hres
    cases state with
    | none => cases hres
    | some s =>
      cases hres
      obtain ⟨blk, hblk⟩ : ∃ blk, db.block? height = some blk := by
        unfold Melstf.getState at hget
        split at hget
        · cases hget
        · next blk hblk => exact ⟨blk, hblk⟩
      obtain ⟨hpos, hle⟩ := hwf.block_le hblk
      have hpos' : 0 < height := hpos
      refine ⟨s, hle, ?_, rfl⟩
      unfold Melstf.stateAt
      rw [if_pos hpos', hget]

/-- A header that is told is the one of a stored block, and the proof is the stored one. -/
theorem told_eval (hB : N.melstf.BuildsStates) (hchain : N.melstf.Chain N.genesis db) {req : Request}
    {reply : Reply ω}
    (h : (N.body req : Rpc Tree ι (Reply ω)).eval (N.uncached db) = some reply) {header : Header}
    {proof : ConsensusProof} (htold : reply.told? = some (header, proof))
    (hpos : 0 < header.height) :
    ∃ blk, db.block? header.height = some blk ∧ blk.header = header ∧
      db.consensusProofs[header.height]? = some proof := by
  have hwf := hchain.wellFormed hB
  unfold body at h
  cases req with
  | getAbbrBlock height =>
    obtain ⟨res, hres, rfl⟩ := Prog.eval_map_eq_some.mp h
    rw [eval_getAbbrBlock] at hres
    cases hres
    cases hblk : db.block? height with
    | none =>
      rw [hblk] at htold
      cases htold
    | some blk =>
      cases hproof : db.consensusProofs[height]? with
      | none =>
        rw [hblk, hproof] at htold
        cases htold
      | some proof' =>
        rw [hblk, hproof] at htold
        cases htold
        have hheight : (N.abbreviate blk).header.height = height := hwf.block_height hblk
        rw [hheight]
        exact ⟨blk, hblk, rfl, hproof⟩
  | getSummary =>
    obtain ⟨summary, hres, rfl⟩ := Prog.eval_map_eq_some.mp h
    cases htold
    cases hstate : N.melstf.highestState N.genesis db with
    | error site =>
      simp only [getSummary, Prog.eval_bind, eval_highestState, hstate, Except.toOption,
        Option.bind_none, reduceCtorEq] at hres
    | ok state =>
      have hproof := proof_of_getSummary hB hchain hres
      rw [eval_getSummary hstate] at hres
      cases hres
      have hheight : (N.melstf.header state).height = db.highestHeight :=
        hwf.stateAt_height hB hstate
      obtain ⟨blk, hblk, -, rfl⟩ := Melstf.stateAt_ok (hheight ▸ hpos) hstate
      refine ⟨blk, ?_, (hB.header_fromBlock ..).symm, (hproof hpos).1⟩
      rw [hheight]
      exact hblk
  | _ =>
    obtain ⟨res, -, rfl⟩ := Prog.eval_map_eq_some.mp h
    cases htold

end Read

/-! ## In every run -/

section Runs

variable [DecidableEq ι] {i j : ι} {h : Nat} {header header' : Header} {proof proof' : ConsensusProof}
  {stakers : Table HashVal Bytes}

/-- In a run node `i` tells a header with its proof and the stakers of height `h`, one after the other
in either order, after checks of its blocks for which the stake ahead was harmless. -/
def Tells (N : NodeRpc Sealed Unsealed Tree ω) (i : ι) (h : Nat) (header : Header)
    (proof : ConsensusProof) (stakers : Table HashVal Bytes) : Prop :=
  ∃ (c c' c₁ c₁' : N.Config ι) (n n' : Nat) (req : Request) (reply : Reply ω)
    (labels labels' : List (N.Label ι)),
    (N.swarm ι).procs.lts.Reachable c ∧ (N.swarm ι).procs.lts.Reachable c₁ ∧
    N.Serves (i, n) req reply c labels c' ∧ req.isRead = true ∧ reply.told? = some (header, proof) ∧
    N.Serves (i, n') (.getStakersRaw h) (.stakersRaw (some stakers)) c₁ labels' c₁' ∧
    ((N.swarm ι).procs.lts.Reaches c' c₁ ∨ (N.swarm ι).procs.lts.Reaches c₁' c) ∧
    N.melstf.StoredMeet N.genesis N.melstf.HarmlessCheck (c'.shared.nodes i).db

/-- **What is told convinces.** The signatures in the proof are of more than two thirds of the stake
that is told for the height below. -/
theorem told_quorum (hN : N.Lawful) (hM : N.melstf.EnumeratesStakes) (hkeeps : N.KeepsStakers)
    (htells : N.Tells i h header proof stakers) (hheight : header.height = h + 1) :
    2 * activeStake (N.toldDocs stakers) (N.melstf.epoch header.height) (fun _ => true) <
      3 * activeStake (N.toldDocs stakers) (N.melstf.epoch header.height)
        (N.melstf.signedBy (N.melstf.headerHash header) proof) := by
  obtain ⟨c, c', c₁, c₁', n, n', req, reply, labels, labels', hc, hc₁, hserves, hread, htold, hserves',
    horder, hmeet⟩ := htells
  obtain ⟨db, hduring, heval⟩ := hserves.uncached hN hc hread
  obtain ⟨db', hduring', heval'⟩ := hserves'.uncached hN hc₁ rfl
  obtain ⟨blk, hblk, rfl, hproof⟩ := told_eval hN.builds (hduring.chain hN hc) heval htold (by omega)
  obtain ⟨s, hle', hs', rfl⟩ :=
    stakersRaw_eval ((hduring'.chain hN hc₁).wellFormed hN.builds) heval'
  rw [hheight] at hblk hproof
  -- the two stores are of one chain
  have hle : h ≤ db.highestHeight :=
    Nat.le_of_succ_le (((hduring.chain hN hc).wellFormed hN.builds).block_le hblk).2
  have hs : N.melstf.stateAt N.genesis db h = .ok s := by
    rcases horder with hlater | hearlier
    · rw [← Melstf.stateAt_isPrefix (hduring.isPrefix hN hc hlater hduring') hle]
      exact hs'
    · rw [Melstf.stateAt_isPrefix (hduring'.isPrefix hN hc₁ hearlier hduring) hle']
      exact hs'
  -- and so is the store after the reply
  have hend : db.IsPrefix (c'.shared.nodes i).db :=
    hduring.isPrefix hN hc (.refl c') ⟨[], [], c', rfl, rfl, rfl, rfl⟩
  obtain ⟨before, after, m, -, hbefore, hafter, -⟩ := hduring
  have hc' := (hc.trans (Procs.reaches_of_run hbefore)).trans (Procs.reaches_of_run hafter)
  have hquorum := Melstf.quorumStored_of_meet hM hN.builds ((swarm_nodeOk hN hc' i).chain hN.builds)
    hmeet (hend.block? hblk) (hend.keeps.proofs hproof) ((Melstf.stateAt_isPrefix hend hle).trans hs)
  have hdocs := toldDocs_perm hkeeps (N.melstf.rawStakes s)
  unfold activeStake
  rw [weigh_perm _ _ hdocs, weigh_perm _ _ hdocs]
  exact hquorum

/-- **Forks are accountable.** Whatever headers of one height two nodes tell over the same stakers, keys
with more than a third of the stake have valid signatures over both. -/
theorem told_accountable (hN : N.Lawful) (hM : N.melstf.EnumeratesStakes) (hkeeps : N.KeepsStakers)
    (htells : N.Tells i h header proof stakers) (htells' : N.Tells j h header' proof' stakers)
    (hheight : header.height = h + 1) (hheight' : header'.height = h + 1) :
    activeStake (N.toldDocs stakers) (N.melstf.epoch (h + 1)) (fun _ => true) <
      3 * activeStake (N.toldDocs stakers) (N.melstf.epoch (h + 1)) fun pk =>
        N.melstf.signedBy (N.melstf.headerHash header) proof pk &&
          N.melstf.signedBy (N.melstf.headerHash header') proof' pk := by
  have hquorum := told_quorum hN hM hkeeps htells hheight
  have hquorum' := told_quorum hN hM hkeeps htells' hheight'
  rw [hheight] at hquorum
  rw [hheight'] at hquorum'
  exact third_lt_activeStake_and hquorum hquorum'

end Runs

end NodeRpc

/-! ## Two nodes on two sides of a fork -/

namespace Ledger

theorem rpc_keepsStakers : rpc.KeepsStakers where
  rehash_inj := Function.injective_id
  decodes doc := decodeStakeDoc_encodeStakeDoc doc

/-- No time passes. -/
def still : Surroundings Bool := ⟨0, []⟩

/-- Another block after the first. -/
def rivalBlock : Block :=
  match applyBlock (ledger.genesisState threeStakers) (firstBlock 1) with
  | .ok s => blockOn s [payment 3]
  | .error _ => firstBlock 1

/-- The second block of each node. -/
def forkBlock (i : Bool) : Block := if i then rivalBlock else secondBlock

/-- The storage of each node, with a second block that all three stakers have signed. -/
def forked (i : Bool) : Procs.Config Nat (Shared Ledger.Unsealed) (Call Ledger.Sealed) :=
  ledger.storageAfter threeStakers
    (Melstf.soloCall 0 0 (firstBlock 1) (proofBy [1, 2, 3] (firstBlock 1)) ++
      Melstf.soloCall 1 1 (forkBlock i) (proofBy [1, 2, 3] (forkBlock i)))

theorem forked_reachable (i : Bool) : ((ledger.storage threeStakers).lts.guard
    (ledger.ChecksMeet ledger.HarmlessCheck)).Reachable (forked i) := by
  unfold forked
  exact Melstf.storageAfter_guarded _ _ (by cases i <;> with_unfolding_all decide)

/-- One of the nodes has been asked. -/
def asked (i : Bool) (req : Request) (steps : Nat) : rpc.Config Bool :=
  swarmAfter (swarmOn forked) (handles (i, 0) still req steps)

/-- What is told of the stakers after the first block. -/
def firstStakers : Table HashVal Bytes := rpc.stakersOf threeStakers.stakes

/-- The node has replied, and then tells the stakers. -/
def Answers (i : Bool) (req : Request) (steps : Nat)
    (reply : Reply (List Block × List ConsensusProof)) : Prop :=
  ((rpc.swarm Bool).procs.run (swarmOn forked) (handles (i, 0) still req steps)).isSome ∧
  ((asked i req steps).procs (i, 0)).reply? = some (req, reply) ∧
  ((asked i req steps).shared.nodes i).db.highestHeight = (forked i).shared.db.highestHeight ∧
  ((rpc.swarm Bool).procs.run (asked i req steps)
    (handles (i, 1) still (.getStakersRaw 1) 4)).isSome ∧
  ((swarmAfter (asked i req steps) (handles (i, 1) still (.getStakersRaw 1) 4)).procs (i, 1)).reply? =
    some (.getStakersRaw 1, .stakersRaw (some firstStakers))

theorem Answers.tells {i : Bool} {req : Request} {steps : Nat}
    {reply : Reply (List Block × List ConsensusProof)} (h : Answers i req steps reply)
    (hread : req.isRead = true)
    (htold : reply.told? = some ((forkBlock i).header, proofBy [1, 2, 3] (forkBlock i))) :
    rpc.Tells i 1 (forkBlock i).header (proofBy [1, 2, 3] (forkBlock i)) firstStakers := by
  obtain ⟨hrun, hreply, hheight, hrun', hreply'⟩ := h
  have hstart : (rpc.swarm Bool).procs.lts.Reachable (swarmOn forked) :=
    .init (swarmOn_init fun i => (forked_reachable i).of_guard)
  have hasked : (rpc.swarm Bool).procs.lts.Reachable (asked i req steps) :=
    hstart.trans (swarmAfter_reaches hrun)
  -- the answer has not changed the store
  have hnode : ((swarmOn forked).shared.nodes i).db = (forked i).shared.db := by
    simp only [swarmOn, NodeRpc.startNode, RpcNode.db]
  have hstored : ((swarmOn forked).shared.nodes i).db.IsPrefix ((asked i req steps).shared.nodes i).db :=
    NodeRpc.swarm_isPrefix rpc_lawful hstart (swarmAfter_reaches hrun) i
  rw [hnode] at hstored
  have hwf := ((NodeRpc.swarm_nodeOk rpc_lawful hasked i).chain ledger_builds).wellFormed ledger_builds
  have hsame : ((asked i req steps).shared.nodes i).db = (forked i).shared.db := by
    rw [← hwf.upTo_highestHeight, hheight]
    exact hstored.eq
  have hmeet : ledger.StoredMeet threeStakers ledger.HarmlessCheck
      ((asked i req steps).shared.nodes i).db := by
    rw [hsame]
    exact Melstf.storedMeet_of_checks ledger_builds (forked_reachable i)
  exact ⟨swarmOn forked, asked i req steps, asked i req steps,
    swarmAfter (asked i req steps) (handles (i, 1) still (.getStakersRaw 1) 4), 0, 1, req, reply, _, _,
    hstart, hasked, serves_swarmAfter hrun hreply, hread, htold, serves_swarmAfter hrun' hreply',
    Or.inl (.refl _), hmeet⟩

theorem second_answers : Answers false (.getAbbrBlock 2) 6
    (.abbrBlock (some (rpc.abbreviate secondBlock, proofBy [1, 2, 3] secondBlock))) := by
  unfold Answers
  with_unfolding_all decide

theorem rival_answers : Answers true .getSummary 8
    (.summary ⟨.custom 2, 2, rivalBlock.header, proofBy [1, 2, 3] rivalBlock⟩) := by
  unfold Answers
  with_unfolding_all decide

end Ledger

namespace NodeRpc

/-- What is told of the second block convinces. -/
theorem told_quorum_second :
    2 * activeStake (Ledger.rpc.toldDocs Ledger.firstStakers)
        (Ledger.rpc.melstf.epoch Ledger.secondBlock.header.height) (fun _ => true) <
      3 * activeStake (Ledger.rpc.toldDocs Ledger.firstStakers)
        (Ledger.rpc.melstf.epoch Ledger.secondBlock.header.height)
        (Ledger.rpc.melstf.signedBy (Ledger.rpc.melstf.headerHash Ledger.secondBlock.header)
          (Ledger.proofBy [1, 2, 3] Ledger.secondBlock)) :=
  told_quorum Ledger.rpc_lawful ledger_enumerates Ledger.rpc_keepsStakers
    (Ledger.second_answers.tells rfl rfl) (by with_unfolding_all decide)

/-- The nodes tell two second blocks, so stakers have signed both. -/
theorem told_accountable_rival :
    Ledger.secondBlock.header ≠ Ledger.rivalBlock.header ∧
      activeStake (Ledger.rpc.toldDocs Ledger.firstStakers) (Ledger.rpc.melstf.epoch 2) (fun _ => true) <
        3 * activeStake (Ledger.rpc.toldDocs Ledger.firstStakers) (Ledger.rpc.melstf.epoch 2) fun pk =>
          Ledger.rpc.melstf.signedBy (Ledger.rpc.melstf.headerHash Ledger.secondBlock.header)
              (Ledger.proofBy [1, 2, 3] Ledger.secondBlock) pk &&
            Ledger.rpc.melstf.signedBy (Ledger.rpc.melstf.headerHash Ledger.rivalBlock.header)
              (Ledger.proofBy [1, 2, 3] Ledger.rivalBlock) pk :=
  ⟨by with_unfolding_all decide, told_accountable Ledger.rpc_lawful ledger_enumerates
    Ledger.rpc_keepsStakers (Ledger.second_answers.tells rfl rfl) (Ledger.rival_answers.tells rfl rfl)
    (by with_unfolding_all decide) (by with_unfolding_all decide)⟩

end NodeRpc

end Melnode
