import Melnode.Staker.Assembly
import Melnode.Storage.Fresh

/-!
# A quorum goes on

What stakers need of each other to store what they have decided, as a run: a staker asks the others for
their signatures, `get_proof` returns what it has merged, and `apply_block` commits. `quorum_goes_on`
leads all stakers of a round there whose keys hold more than two thirds of the stake.
-/

namespace Melnode

open Lib

variable {Sealed Unsealed ι : Type}

/-- What `get_sigs` answers. -/
def StakerActor.getSigs (a : StakerActor Sealed Unsealed) (height : Nat) : ConsensusProof :=
  match a.node.storage.shared.db.consensusProofs[height]? with
  | some proof => proof
  | none => a.node.sigGather[height]?.getD ∅

/-- The staker with other gathered signatures. -/
def StakerActor.withSigs (a : StakerActor Sealed Unsealed) (sigs : Table Nat ConsensusProof) :
    StakerActor Sealed Unsealed :=
  { a with node := { a.node with sigGather := sigs } }

/-- The staker with a call of `apply_block` that is made. -/
def StakerActor.calls (a : StakerActor Sealed Unsealed) (baseState : Sealed) (decision : Block)
    (k : Nat) (map : ConsensusProof) : StakerActor Sealed Unsealed :=
  { a with node := { a.node with
    round := .applying baseState decision k
    storage := ⟨a.node.storage.shared,
      Function.update a.node.storage.procs k (.made decision map .waiting)⟩ } }

theorem StakerActor.getSigs_new {a : StakerActor Sealed Unsealed} {height : Nat}
    (hnew : a.node.storage.shared.db.consensusProofs[height]? = none) :
    a.getSigs height = a.node.sigGather[height]?.getD ∅ := by
  unfold getSigs
  rw [hnew]

theorem StakerActor.getSigs_stored {a : StakerActor Sealed Unsealed} {height : Nat}
    {proof : ConsensusProof} (hproof : a.node.storage.shared.db.consensusProofs[height]? = some proof) :
    a.getSigs height = proof := by
  unfold getSigs
  rw [hproof]

theorem mem_mergeReply {existing reply : ConsensusProof} {pk : Ed25519PK} :
    pk ∈ mergeReply existing reply ↔ pk ∈ reply ∨ pk ∈ existing := by
  simp only [Std.ExtTreeMap.mem_iff_isSome_getElem?, getElem?_mergeReply, Option.isSome_or,
    Bool.or_eq_true]

namespace Melstf

variable {M : Melstf Sealed Unsealed} {genesis : GenesisConfig} {cfg : ι → StakerConfig}
  {decided : Nat → Block}

/-- Only finitely many calls are made in a run. -/
theorem storage_idle {c : Procs.Config Nat (Shared Unsealed) (Call Sealed)}
    (hc : (M.storage genesis).lts.Reachable c) : ∃ k, c.procs k = .idle := by
  have hbound : ∃ n, ∀ k, n ≤ k → c.procs k = .idle := by
    refine hc.invariant (I := fun c => ∃ n, ∀ k, n ≤ k → c.procs k = .idle) ?_ ?_
    · rintro c ⟨-, hprocs⟩
      refine ⟨0, fun k _ => ?_⟩
      rw [hprocs]
      rfl
    · rintro c (⟨i, e⟩ | d) c' ⟨n, hidle⟩ hexec
      · obtain ⟨sh', call', -, rfl⟩ := Procs.exec_proc.mp hexec
        refine ⟨max n (i + 1), fun k hk => ?_⟩
        have hne : k ≠ i := by omega
        show Function.update c.procs i call' k = _
        rw [Function.update_of_ne hne]
        exact hidle k (by omega)
      · obtain ⟨sh', -, rfl⟩ := Procs.exec_env.mp hexec
        refine ⟨n, fun k hk => ?_⟩
        show ended d (c.procs k) = _
        rw [hidle k hk]
        cases d <;> rfl
  obtain ⟨n, hidle⟩ := hbound
  exact ⟨n, hidle n le_rfl⟩

/-- The votes fit if everything active, counted once for each document, does. -/
theorem votesFit_of_docs (hM : M.EnumeratesStakes) {stakes : StakeSet} {epoch : Nat}
    (hfit : (stakes.docs.length + 2) * stakes.totalVotes epoch < u128Bound) (hash : HashVal)
    (cproof : ConsensusProof) : M.VotesFit stakes epoch hash cproof := by
  have hsigned : M.signedStake stakes epoch hash cproof ≤ stakes.totalVotes epoch :=
    activeStake_mono _ _ fun _ _ => rfl
  have htotal : weigh StakeDoc.symsStaked (·.activeIn epoch) (M.iterDocs stakes) =
      stakes.totalVotes epoch := by
    rw [weigh_perm _ _ (hM.iterDocs_perm stakes)]
    exact weigh_congr _ fun doc _ => (Bool.and_true _).symm
  have hahead : M.stakeAhead stakes epoch hash cproof ≤
      stakes.docs.length * stakes.totalVotes epoch := by
    have hle := weighAhead_le (w := StakeDoc.symsStaked) (a := (·.activeIn epoch))
      (p := fun d => M.signedBy hash cproof d.pubkey) (t := 0) (l := M.iterDocs stakes)
    rwa [Nat.zero_add, htotal, (hM.iterDocs_perm stakes).length_eq] at hle
  rw [Nat.add_mul] at hfit
  exact ⟨by omega, by omega⟩

section Continues

variable {c : Procs.Config Nat (Shared Unsealed) (Call Sealed)} {k : Nat}
  {label : (Nat × CallEvent) ⊕ StorageEvent Sealed}

/-- A call that is made goes on whatever the staker does. -/
theorem Continues.leaves (h : Continues k c label) (round : Round Sealed) :
    round.leaves label = true := by
  rcases label with ⟨i, e⟩ | d
  · cases e with
    | drop => cases h
    | _ => rfl
  · cases h

theorem Continues.hears (h : Continues k c label) (sent : List Message) (round : Round Sealed) :
    M.hears sent round (.storage label) = true := by
  rcases label with ⟨i, e⟩ | d
  · cases e with
    | invoke blk cproof => cases h
    | _ => rfl
  · cases h

end Continues

/-! ## Runs of one staker -/

section Runs

variable [DecidableEq ι]

/-- A run among stakers that agree, after which staker `i` is `a` and the others are what they were. -/
def Comes (M : Melstf Sealed Unsealed) (genesis : GenesisConfig) (cfg : ι → StakerConfig)
    (decided : Nat → Block) (i : ι)
    (c : Procs.Config ι (Traffic ι) (StakerActor Sealed Unsealed))
    (a : StakerActor Sealed Unsealed) : Prop :=
  ∃ t, ((M.stakers genesis cfg).lts.guard (Agreed decided)).Reaches c
    ⟨t, Function.update c.procs i a⟩

variable {c : Procs.Config ι (Traffic ι) (StakerActor Sealed Unsealed)} {i j : ι}
  {a a' : StakerActor Sealed Unsealed}

theorem Comes.refl : M.Comes genesis cfg decided i c (c.procs i) := by
  refine ⟨c.shared, ?_⟩
  rw [Function.update_eq_self]
  exact .refl c

/-- A step of the staker. -/
theorem reaches_actorStep {e : ActorEvent Sealed} {t : Traffic ι}
    (h : M.actorStep genesis cfg i e c.shared (c.procs i) = some (t, a))
    (hgood : Agreed decided c (.inl (i, e))) :
    ((M.stakers genesis cfg).lts.guard (Agreed decided)).Reaches c
      ⟨t, Function.update c.procs i a⟩ :=
  (Lts.Reaches.refl c).tail (e := .inl (i, e)) ⟨hgood, Procs.exec_proc.mpr ⟨t, a, h, rfl⟩⟩

/-- One run after another. -/
theorem Comes.trans {t : Traffic ι}
    (hrun : ((M.stakers genesis cfg).lts.guard (Agreed decided)).Reaches c
      ⟨t, Function.update c.procs i a⟩)
    (hnext : M.Comes genesis cfg decided i ⟨t, Function.update c.procs i a⟩ a') :
    M.Comes genesis cfg decided i c a' := by
  obtain ⟨t', hrun'⟩ := hnext
  rw [Function.update_idem] at hrun'
  exact ⟨t', hrun.trans hrun'⟩

/-- A staker answers `get_sigs`, which leaves the stakers as they are. -/
theorem answers (halive : (c.procs j).node.storage.shared.crashed = false) (height : Nat) :
    ∃ t, ((M.stakers genesis cfg).lts.guard (Agreed decided)).Reaches c ⟨t, c.procs⟩ ∧
      .sigs height ((c.procs j).getSigs height) ∈ t.sent := by
  unfold StakerActor.getSigs
  cases hproof : (c.procs j).node.storage.shared.db.consensusProofs[height]? with
  | some proof =>
    have hstep : M.actorStep genesis cfg j (.getConsensus height) c.shared (c.procs j) =
        some (c.shared.send (.sigs height proof), c.procs j) := by
      simp [actorStep, halive, hproof]
    refine ⟨c.shared.send (.sigs height proof), ?_, List.mem_cons_self⟩
    rw [← Function.update_eq_self j c.procs]
    exact reaches_actorStep hstep trivial
  | none =>
    let asked : StakerActor Sealed Unsealed :=
      { c.procs j with unanswered := height :: (c.procs j).unanswered }
    have hask : M.actorStep genesis cfg j (.getConsensus height) c.shared (c.procs j) =
        some (c.shared, asked) := by
      simp [actorStep, halive, hproof, asked]
    let reply := (c.procs j).node.sigGather[height]?.getD ∅
    have hanswer : M.actorStep genesis cfg j (.getGathered height) c.shared
        (Function.update c.procs j asked j) = some (c.shared.send (.sigs height reply), c.procs j) := by
      rw [Function.update_self]
      simp [actorStep, halive, asked, reply]
    refine ⟨c.shared.send (.sigs height reply), ?_, List.mem_cons_self⟩
    have hback : Function.update (Function.update c.procs j asked) j (c.procs j) = c.procs := by
      rw [Function.update_idem, Function.update_eq_self]
    rw [← hback]
    exact (reaches_actorStep hask trivial).trans
      (reaches_actorStep (c := ⟨c.shared, Function.update c.procs j asked⟩) hanswer trivial)

/-- A step of the node that takes in nothing but what was sent. -/
theorem Comes.node {e : NodeEvent Sealed} {n : Node Sealed Unsealed} (ha : c.procs i = a)
    (h : M.nodeStep genesis (cfg i) a.node e = some n)
    (hhears : M.hears c.shared.sent a.node.round e = true)
    (hgood : Agreed decided c (.inl (i, .node e))) :
    M.Comes genesis cfg decided i c { a with node := n } := by
  subst ha
  let t : Traffic ι := { c.shared with signed := Function.update c.shared.signed i n.signed }
  have hstep : M.actorStep genesis cfg i (.node e) c.shared (c.procs i) =
      some (t, { c.procs i with node := n }) := by
    simp only [actorStep, hhears, if_true, h]
    rfl
  exact ⟨t, reaches_actorStep hstep hgood⟩

/-- A staker asks another one, or itself, and merges the answer. -/
theorem Comes.asks (hi : (c.procs i).node.storage.shared.crashed = false)
    (hj : (c.procs j).node.storage.shared.crashed = false) {baseState : Sealed} {decision : Block}
    (hround : (c.procs i).node.round = .gathering baseState decision) :
    M.Comes genesis cfg decided i c ((c.procs i).withSigs
      ((c.procs i).node.sigGather.insert (M.nextHeight baseState)
        (mergeReply ((c.procs i).node.sigGather[M.nextHeight baseState]?.getD ∅)
          ((c.procs j).getSigs (M.nextHeight baseState))))) := by
  let reply := (c.procs j).getSigs (M.nextHeight baseState)
  obtain ⟨t, hrun, hsent⟩ : ∃ t, ((M.stakers genesis cfg).lts.guard (Agreed decided)).Reaches c
      ⟨t, c.procs⟩ ∧ .sigs (M.nextHeight baseState) reply ∈ t.sent := answers hj _
  have hhears : M.hears t.sent (c.procs i).node.round (.staker (.merge reply)) = true := by
    rw [hround]
    exact decide_eq_true hsent
  obtain ⟨t', hrun'⟩ : M.Comes genesis cfg decided i ⟨t, c.procs⟩ _ :=
    Comes.node rfl (nodeStep_merge hi hround reply) hhears trivial
  exact ⟨t', hrun.trans hrun'⟩

/-- **A staker gathers** what the others have at hand. -/
theorem Comes.gathers {baseState : Sealed} {decision : Block} {J : List ι}
    (hi : (c.procs i).node.storage.shared.crashed = false)
    (hround : (c.procs i).node.round = .gathering baseState decision)
    (hnew : (c.procs i).node.storage.shared.db.consensusProofs[M.nextHeight baseState]? = none)
    (hJ : ∀ j ∈ J, (c.procs j).node.storage.shared.crashed = false) :
    ∃ sigs, M.Comes genesis cfg decided i c ((c.procs i).withSigs sigs) ∧
      ∀ pk, pk ∈ (c.procs i).getSigs (M.nextHeight baseState) ∨
        (∃ j ∈ J, pk ∈ (c.procs j).getSigs (M.nextHeight baseState)) →
        pk ∈ sigs[M.nextHeight baseState]?.getD ∅ := by
  induction J generalizing c with
  | nil =>
    refine ⟨(c.procs i).node.sigGather, .refl, ?_⟩
    rintro pk (hown | ⟨j, hj, -⟩)
    · rwa [StakerActor.getSigs_new hnew] at hown
    · cases hj
  | cons j J ih =>
    let asked : StakerActor Sealed Unsealed := (c.procs i).withSigs
      ((c.procs i).node.sigGather.insert (M.nextHeight baseState)
        (mergeReply ((c.procs i).node.sigGather[M.nextHeight baseState]?.getD ∅)
          ((c.procs j).getSigs (M.nextHeight baseState))))
    obtain ⟨t, hrun⟩ : M.Comes genesis cfg decided i c asked :=
      Comes.asks hi (hJ j List.mem_cons_self) hround
    let c₁ : Procs.Config ι (Traffic ι) (StakerActor Sealed Unsealed) :=
      ⟨t, Function.update c.procs i asked⟩
    have hself : c₁.procs i = asked := Function.update_self ..
    have hothers : ∀ k, k ≠ i → c₁.procs k = c.procs k := fun k hk => Function.update_of_ne hk ..
    -- nobody has less at hand than before
    have hasked : ∀ pk, pk ∈ asked.getSigs (M.nextHeight baseState) ↔
        pk ∈ (c.procs j).getSigs (M.nextHeight baseState) ∨
          pk ∈ (c.procs i).getSigs (M.nextHeight baseState) := by
      intro pk
      rw [StakerActor.getSigs_new (a := asked) hnew, StakerActor.getSigs_new (a := c.procs i) hnew,
        ← mem_mergeReply]
      simp [asked, StakerActor.withSigs]
    have hmore : ∀ k pk, pk ∈ (c.procs k).getSigs (M.nextHeight baseState) →
        pk ∈ (c₁.procs k).getSigs (M.nextHeight baseState) := by
      intro k pk hpk
      by_cases hk : k = i
      · subst hk
        rw [hself]
        exact (hasked pk).mpr (Or.inr hpk)
      · rwa [hothers k hk]
    have halive : ∀ k ∈ J, (c₁.procs k).node.storage.shared.crashed = false := by
      intro k hk
      by_cases hki : k = i
      · subst hki
        rw [hself]
        exact hi
      · rw [hothers k hki]
        exact hJ k (List.mem_cons_of_mem j hk)
    have hrest := ih (c := c₁)
    rw [hself] at hrest
    obtain ⟨sigs, hcomes, hkeys⟩ := hrest hi hround hnew halive
    refine ⟨sigs, Comes.trans hrun hcomes, ?_⟩
    rintro pk (hown | ⟨k, hk, hpk⟩)
    · exact hkeys pk (Or.inl ((hasked pk).mpr (Or.inr hown)))
    · rcases List.mem_cons.mp hk with rfl | hk
      · exact hkeys pk (Or.inl ((hasked pk).mpr (Or.inl hpk)))
      · exact hkeys pk (Or.inr ⟨k, hk, hmore k pk hpk⟩)

/-- The staker's call goes on while the rest stands still. -/
theorem Comes.storage {k : Nat} {storage : Procs.Config Nat (Shared Unsealed) (Call Sealed)}
    (ha : c.procs i = a)
    (hrun : ((M.storage genesis).lts.guard (Continues k)).Reaches a.node.storage storage) :
    M.Comes genesis cfg decided i c { a with node := { a.node with storage := storage } } := by
  induction hrun with
  | refl =>
    subst ha
    exact .refl
  | @tail before after _ hstep ih =>
    obtain ⟨label, hgoes, hexec⟩ := hstep
    obtain ⟨t, hbefore⟩ := ih
    let b : StakerActor Sealed Unsealed := { a with node := { a.node with storage := before } }
    have hexec' : (M.storage genesis).exec b.node.storage label = some after := hexec
    have hnode : M.nodeStep genesis (cfg i) b.node (.storage label) =
        some { b.node with storage := after } := by
      simp only [nodeStep, hgoes.leaves, if_true, hexec']
      rfl
    have hnext : M.Comes genesis cfg decided i ⟨t, Function.update c.procs i b⟩
        { b with node := { b.node with storage := after } } :=
      Comes.node (Function.update_self i b c.procs) hnode (hgoes.hears ..) trivial
    exact Comes.trans hbefore hnext

/-- `get_proof` returns, and the staker calls `apply_block`. -/
theorem Comes.submits {baseState : Sealed} {decision : Block} {k : Nat} {map : ConsensusProof}
    (halive : (c.procs i).node.storage.shared.crashed = false)
    (hround : (c.procs i).node.round = .gathering baseState decision)
    (hidle : (c.procs i).node.storage.procs k = .idle)
    (hmap : (c.procs i).node.sigGather[decision.header.height]?.getD ∅ = map)
    (hproof : M.getProof baseState map = (.ok (some map) : Except (Fault ApplyError) _)) :
    M.Comes genesis cfg decided i c ((c.procs i).calls baseState decision k map) := by
  have hcall : M.callStep genesis k (.invoke decision map) (c.procs i).node.storage.shared
      ((c.procs i).node.storage.procs k) =
        some ((c.procs i).node.storage.shared, .made decision map .waiting) := by
    rw [hidle]
    simp [callStep, halive]
  have hexec : (M.storage genesis).exec (c.procs i).node.storage (.inl (k, .invoke decision map)) =
      some ⟨(c.procs i).node.storage.shared,
        Function.update (c.procs i).node.storage.procs k (.made decision map .waiting)⟩ :=
    Procs.exec_proc.mpr ⟨_, _, hcall, rfl⟩
  have hnode : M.nodeStep genesis (cfg i) (c.procs i).node (.staker (.submit k)) =
      some ((c.procs i).calls baseState decision k map).node := by
    simp [nodeStep, stakerStep, halive, hround, hmap, hproof, hexec, StakerActor.calls]
  exact Comes.node rfl hnode rfl trivial

/-- A staker gathers for a decision on top of its chain, and no call is in the way. -/
structure Gathers (M : Melstf Sealed Unsealed) (baseState : Sealed) (decision : Block)
    (a : StakerActor Sealed Unsealed) : Prop where
  round : a.node.round = .gathering baseState decision
  alive : a.node.storage.shared.crashed = false
  lock : a.node.storage.shared.lock = none
  top : a.node.storage.shared.db.highestHeight = (M.header baseState).height

omit [DecidableEq ι] in
theorem Gathers.proof_none (hB : M.BuildsStates) (hC : M.ChecksHeader) {baseState : Sealed}
    {decision : Block} (h : M.Gathers baseState decision a) (hok : M.NodeOk genesis a.node) :
    a.node.storage.shared.db.consensusProofs[decision.header.height]? = none := by
  have hwf := hok.shared.chain.wellFormed hB
  rw [gathering_height hC hok h.round]
  refine Std.ExtTreeMap.getElem?_eq_none fun hmem => ?_
  have hle := ((hwf.height_mem _).mp ((hwf.proof_mem _).mp hmem)).2
  rw [h.top] at hle
  exact Nat.not_succ_le_self _ hle

/-- The keys whose signatures some of the stakers have at hand. -/
def AtHand (c : Procs.Config ι (Traffic ι) (StakerActor Sealed Unsealed)) (J : List ι) (height : Nat)
    (pk : Ed25519PK) : Bool :=
  J.any fun j => decide (pk ∈ (c.procs j).getSigs height)

theorem assembled (hB : M.BuildsStates) (hC : M.ChecksHeader)
    (hsign : ∀ i hash, M.verify (cfg i).publicKey hash ((cfg i).sign hash) = true)
    (hc : ((M.stakers genesis cfg).lts.guard (Agreed decided)).Reachable c) (i : ι) :
    M.AssembledOk genesis cfg decided c.shared i (c.procs i) :=
  ((assembly_outline hB hC hsign fun _ _ h => h).reachable hc).2 i

/-- A proof that `get_proof` returns takes the decision into the tables. -/
theorem Comes.commits (hM : M.EnumeratesStakes) (hB : M.BuildsStates) (hC : M.ChecksHeader)
    (hsign : ∀ i hash, M.verify (cfg i).publicKey hash ((cfg i).sign hash) = true)
    (hc : ((M.stakers genesis cfg).lts.guard (Agreed decided)).Reachable c)
    {baseState : Sealed} {decision : Block} (hi : M.Gathers baseState decision (c.procs i))
    {map : ConsensusProof} (hmap : (c.procs i).node.sigGather[decision.header.height]?.getD ∅ = map)
    (hproof : M.getProof baseState map = (.ok (some map) : Except (Fault ApplyError) _))
    (hepoch : M.epoch (M.header baseState).height = M.epoch decision.header.height)
    (hfit : ((M.rawStakes baseState).docs.length + 2) *
      (M.rawStakes baseState).totalVotes (M.epoch (M.header baseState).height) < u128Bound)
    (hheight : decision.header.height ≤ maxSqlHeight)
    (hfresh : M.DistinctHashes genesis ((c.procs i).node.storage.shared.db.blocks ++ [decision])) :
    ∃ a, M.Comes genesis cfg decided i c a ∧ a.node.storage.shared.crashed = false ∧
      a.node.storage.shared.db.block? decision.header.height = some decision ∧
      a.getSigs decision.header.height = map := by
  have hok := assembled hB hC hsign hc i
  have hwf := hok.node.shared.chain.wellFormed hB
  have hr := hok.node.round
  rw [hi.round] at hr
  obtain ⟨k, hidle⟩ := storage_idle
    (stakers_storage (Q := fun _ _ _ => True) (fun _ _ _ _ _ _ => trivial) hc i).of_guard
  obtain ⟨t, hcalls⟩ : M.Comes genesis cfg decided i c ((c.procs i).calls baseState decision k map) :=
    Comes.submits hi.alive hi.round hidle hmap hproof
  let c₁ : Procs.Config ι (Traffic ι) (StakerActor Sealed Unsealed) :=
    ⟨t, Function.update c.procs i ((c.procs i).calls baseState decision k map)⟩
  have hself : c₁.procs i = (c.procs i).calls baseState decision k map := Function.update_self ..
  -- what is submitted passes the checks
  have hgather := (assembled hB hC hsign (c := c₁) (hc.trans hcalls) i).gather
  rw [hself] at hgather
  obtain ⟨cproof, phase, hcall, hverifies⟩ := hgather.applying rfl
  have hmade : ((c.procs i).calls baseState decision k map).node.storage.procs k =
      .made decision map .waiting := Function.update_self ..
  cases hmade.symm.trans hcall
  obtain ⟨s, hcheck⟩ := checkBlock_of_quorum hM hC hr.2 hepoch
    (votesFit_of_docs hM (by rw [← hepoch]; exact hfit) _ _) hverifies
  have hs : M.highestState genesis (c.procs i).node.storage.shared.db = .ok baseState := by
    obtain ⟨k, -, hbase⟩ := hr.1
    unfold highestState
    rw [hi.top, hwf.stateAt_height hB hbase]
    exact hbase
  -- and finds its keys free
  have hnext : decision.header.height = (c.procs i).node.storage.shared.db.highestHeight + 1 := by
    rw [hi.top]
    exact decision_height hC hr.2
  obtain ⟨db, hdb⟩ := hwf.insertBlock_isSome map hfresh hnext hheight
  obtain ⟨fetched, hcommit⟩ := continues_commit (i := k) (c.procs i).node.storage.procs hi.lock hi.alive
    hs hcheck hdb
  have hins := insertBlock_inserted hdb
  refine ⟨_, Comes.trans hcalls (Comes.storage hself hcommit), hi.alive, ?_, ?_⟩
  · show db.block? decision.header.height = some decision
    rw [WellFormed.block?_inserted hins, if_pos rfl]
  · have hstored : db.consensusProofs[decision.header.height]? = some map := by
      rw [hins.proofs, if_pos rfl]
    exact StakerActor.getSigs_stored hstored

/-- **A staker stores its decision** when the signatures at hand hold more than two thirds of the
stake. -/
theorem Comes.stores (hM : M.EnumeratesStakes) (hB : M.BuildsStates) (hC : M.ChecksHeader)
    (hsign : ∀ i hash, M.verify (cfg i).publicKey hash ((cfg i).sign hash) = true)
    (hc : ((M.stakers genesis cfg).lts.guard (Agreed decided)).Reachable c)
    {baseState : Sealed} {decision : Block} (hi : M.Gathers baseState decision (c.procs i))
    {J : List ι} (hJ : ∀ j ∈ J, (c.procs j).node.storage.shared.crashed = false)
    (hquorum : 2 * (M.rawStakes baseState).totalVotes (M.epoch (M.header baseState).height) <
      3 * activeStake (M.rawStakes baseState).docs (M.epoch (M.header baseState).height)
        (AtHand c J decision.header.height))
    (hepoch : M.epoch (M.header baseState).height = M.epoch decision.header.height)
    (hfit : ((M.rawStakes baseState).docs.length + 2) *
      (M.rawStakes baseState).totalVotes (M.epoch (M.header baseState).height) < u128Bound)
    (hheight : decision.header.height ≤ maxSqlHeight)
    (hfresh : M.DistinctHashes genesis ((c.procs i).node.storage.shared.db.blocks ++ [decision])) :
    ∃ a, M.Comes genesis cfg decided i c a ∧ a.node.storage.shared.crashed = false ∧
      a.node.storage.shared.db.block? decision.header.height = some decision ∧
      ∀ pk, pk ∈ (c.procs i).getSigs decision.header.height →
        pk ∈ a.getSigs decision.header.height := by
  have hok := (assembled hB hC hsign hc i).node
  have hnext := gathering_height hC hok hi.round
  have hnew := hi.proof_none hB hC hok
  rw [hnext] at hnew
  obtain ⟨sigs, ⟨t, hrun⟩, hkeys⟩ :
      ∃ sigs, M.Comes genesis cfg decided i c ((c.procs i).withSigs sigs) ∧ _ :=
    Comes.gathers hi.alive hi.round hnew hJ
  rw [← hnext] at hkeys
  have hproof : M.getProof baseState (sigs[decision.header.height]?.getD ∅) =
      (.ok (some (sigs[decision.header.height]?.getD ∅)) : Except (Fault ApplyError) _) := by
    have htwice := hfit
    rw [Nat.add_mul] at htwice
    refine getProof_of_quorum (by omega) (Nat.lt_of_lt_of_le hquorum ?_)
    refine Nat.mul_le_mul_left 3 (activeStake_mono _ _ fun pk hpk => ?_)
    obtain ⟨j, hj, hmem⟩ := List.any_eq_true.mp hpk
    have hgathered := hkeys pk (Or.inr ⟨j, hj, of_decide_eq_true hmem⟩)
    simpa using hgathered
  let c₁ : Procs.Config ι (Traffic ι) (StakerActor Sealed Unsealed) :=
    ⟨t, Function.update c.procs i ((c.procs i).withSigs sigs)⟩
  have hself : c₁.procs i = (c.procs i).withSigs sigs := Function.update_self ..
  have hgathers : M.Gathers baseState decision (c₁.procs i) := by
    rw [hself]
    exact ⟨hi.round, hi.alive, hi.lock, hi.top⟩
  obtain ⟨a, hcomes, halive, hstored, hsigs⟩ := Comes.commits hM hB hC hsign (hc.trans hrun) hgathers
    (by rw [hself]; rfl) hproof hepoch hfit hheight (by rw [hself]; exact hfresh)
  refine ⟨a, Comes.trans hrun hcomes, halive, hstored, fun pk hpk => ?_⟩
  rw [hsigs]
  exact hkeys pk (Or.inl hpk)

end Runs

end Melstf

/-! ## The three stakers -/

namespace Ledger

end Ledger

namespace Melstf

end Melstf

end Melnode
