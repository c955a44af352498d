import Melnode.Staker.Network

/-!
# Stakers agree on what is committed

Streamlette is not trusted here: each staker may decide any block its base state accepts. What keeps
the chains of two stakers together is that a committed block carries the signatures of two thirds of
the stake, that no signature of a staker is forged, and that a staker signs one block of a height as
long as no round of it for that height failed. All that is known of a signature, wherever it is on its
way, is that its staker made it (`Unforged`).
-/

namespace Melnode

open Lib

variable {Sealed Unsealed ι : Type}

namespace Melstf

section Definitions

variable (M : Melstf Sealed Unsealed) (genesis : GenesisConfig) (cfg : ι → StakerConfig)
  (headers : Set Header)

/-- What keys and hashes are relied on for, among the headers of a run: no two of them share a hash,
no two stakers share a key, and a signature a staker makes is over one of them only. -/
structure SignsHeaders : Prop where
  hash_inj : Set.InjOn M.headerHash headers
  keys_inj : Function.Injective fun i => (cfg i).publicKey
  sign_only : ∀ i, ∀ hd ∈ headers, ∀ hd' ∈ headers,
    M.verify (cfg i).publicKey (M.headerHash hd') ((cfg i).sign (M.headerHash hd)) = true →
      M.headerHash hd' = M.headerHash hd

/-- What verifies under the key of a staker was signed by it. -/
def Unforged (signed : ι → List (Nat × HashVal)) (map : ConsensusProof) : Prop :=
  ∀ i sig, ∀ hd ∈ headers, map[(cfg i).publicKey]? = some sig →
    M.verify (cfg i).publicKey (M.headerHash hd) sig = true →
      (hd.height, M.headerHash hd) ∈ signed i

/-- A block of the run, with a proof that is not forged. -/
def Genuine (signed : ι → List (Nat × HashVal)) (blk : Block) (cproof : ConsensusProof) : Prop :=
  blk.header ∈ headers ∧ M.Unforged cfg headers signed cproof

/-- The environment forges no signature, nobody leaves the headers of the run, and the stake ahead is
harmless in an accepting check. -/
def Sound (c : Procs.Config ι (Traffic ι) (StakerActor Sealed Unsealed)) :
    (ι × ActorEvent Sealed) ⊕ Message → Prop
  | .inl (i, .node (.storage label)) =>
    M.ChecksMeet M.HarmlessCheck (c.procs i).node.storage label
  | .inl (_, .node (.staker (.decide decision))) => decision.header ∈ headers
  | .inr (.sigs _ reply) => M.Unforged cfg headers c.shared.signed reply
  | .inr (.block blk cproof) => M.Genuine cfg headers c.shared.signed blk cproof
  | _ => True

/-- A key is trusted for a height if a staker has it no round of which for that height failed. -/
def Untrusted (c : Procs.Config ι (Traffic ι) (StakerActor Sealed Unsealed)) (height : Nat)
    (pubkey : Ed25519PK) : Prop :=
  ∀ i, (cfg i).publicKey = pubkey → height ∈ (c.procs i).node.failed

/-- At each height the keys that are not trusted hold at most a third of the stake. -/
def FewUntrusted (c : Procs.Config ι (Traffic ι) (StakerActor Sealed Unsealed)) : Prop :=
  ∀ i h s, M.stateAt genesis (c.procs i).node.storage.shared.db h = .ok s →
    ∀ p : Ed25519PK → Bool, (∀ pubkey, p pubkey = true → Untrusted cfg c (h + 1) pubkey) →
      3 * activeStake (M.rawStakes s).docs (M.epoch (h + 1)) p ≤
        (M.rawStakes s).totalVotes (M.epoch (h + 1))

/-- Among the stakes that the stakers rebuild for heights they have stored, no two share a hash. -/
def StakesTold (c : Procs.Config ι (Traffic ι) (StakerActor Sealed Unsealed)) : Prop :=
  ∀ i j h, h ≤ (c.procs i).node.storage.shared.db.highestHeight →
    h ≤ (c.procs j).node.storage.shared.db.highestHeight →
    M.stakesHash (M.getStakeset genesis (c.procs i).node.storage.shared.db h) =
      M.stakesHash (M.getStakeset genesis (c.procs j).node.storage.shared.db h) →
    M.getStakeset genesis (c.procs i).node.storage.shared.db h =
      M.getStakeset genesis (c.procs j).node.storage.shared.db h

end Definitions

variable {M : Melstf Sealed Unsealed} {genesis : GenesisConfig} {cfg : ι → StakerConfig}
  {headers : Set Header} {signed signed' : ι → List (Nat × HashVal)} {map : ConsensusProof}

/-! ## Signatures on their way -/

section Signatures

theorem Unforged.mono (h : M.Unforged cfg headers signed map) (hsub : ∀ i, signed i ⊆ signed' i) :
    M.Unforged cfg headers signed' map :=
  fun i sig hd hhd hsig hverify => hsub i (h i sig hd hhd hsig hverify)

theorem Genuine.mono {blk : Block} (h : M.Genuine cfg headers signed blk map)
    (hsub : ∀ i, signed i ⊆ signed' i) : M.Genuine cfg headers signed' blk map :=
  ⟨h.1, h.2.mono hsub⟩

theorem Unforged.empty : M.Unforged cfg headers signed ∅ := by
  intro i sig hd _ hsig _
  exact absurd hsig Table.getElem?_empty_ne

theorem Unforged.merge {reply : ConsensusProof} (h : M.Unforged cfg headers signed map)
    (hreply : M.Unforged cfg headers signed reply) :
    M.Unforged cfg headers signed (mergeReply map reply) := by
  intro i sig hd hhd hsig hverify
  rw [getElem?_mergeReply] at hsig
  rcases Option.or_eq_some_iff.mp hsig with hin | ⟨-, hold⟩
  · exact hreply i sig hd hhd hin hverify
  · exact h i sig hd hhd hold hverify

/-- The one entry of a decision is on record when it is made. -/
theorem Unforged.decided (hsigns : M.SignsHeaders cfg headers) {i : ι} {decision : Block}
    (hmem : decision.header ∈ headers)
    (hsigned : (decision.header.height, M.headerHash decision.header) ∈ signed i) :
    M.Unforged cfg headers signed ((∅ : ConsensusProof).insert (cfg i).publicKey
      ((cfg i).sign (M.headerHash decision.header))) := by
  intro j sig hd hhd hsig hverify
  rcases Table.of_getElem?_insert hsig with ⟨hkey, rfl⟩ | hsig
  · obtain rfl : i = j := hsigns.keys_inj hkey
    have hhash := hsigns.sign_only i _ hmem hd hhd hverify
    obtain rfl := hsigns.hash_inj hhd hmem hhash
    exact hsigned
  · exact absurd hsig Table.getElem?_empty_ne

/-- A key that signed is in a proof that is not forged: its staker has signed the header. -/
theorem Unforged.signedBy {hd : Header} (h : M.Unforged cfg headers signed map) (hhd : hd ∈ headers)
    {i : ι} (hsigned : M.signedBy (M.headerHash hd) map (cfg i).publicKey = true) :
    (hd.height, M.headerHash hd) ∈ signed i := by
  unfold Melstf.signedBy at hsigned
  cases hsig : map[(cfg i).publicKey]? with
  | none =>
    rw [hsig] at hsigned
    cases hsigned
  | some sig =>
    rw [hsig] at hsigned
    exact h i sig hd hhd hsig hsigned

end Signatures

/-! ## The invariant -/

/-- What is sent is not forged. -/
structure TrafficOk (M : Melstf Sealed Unsealed) (cfg : ι → StakerConfig) (headers : Set Header)
    (t : Traffic ι) : Prop where
  sigs : ∀ height reply, .sigs height reply ∈ t.sent → M.Unforged cfg headers t.signed reply
  block : ∀ blk cproof, .block blk cproof ∈ t.sent → M.Genuine cfg headers t.signed blk cproof

/-- What is known of staker `i`. -/
structure ActorOk (M : Melstf Sealed Unsealed) (genesis : GenesisConfig) (cfg : ι → StakerConfig)
    (headers : Set Header) (t : Traffic ι) (i : ι) (a : StakerActor Sealed Unsealed) : Prop where
  node : M.NodeOk genesis a.node
  settled : M.Settled a.node
  signed : t.signed i = a.node.signed
  carried : Carries (M.Genuine cfg headers t.signed) a.node.storage
  gathered : ∀ (height : Nat) (map : ConsensusProof), a.node.sigGather[height]? = some map →
    M.Unforged cfg headers t.signed map
  decided : ∀ baseState decision, a.node.round = .gathering baseState decision →
    decision.header ∈ headers

section Steps

variable {i : ι} {t t' : Traffic ι} {a a' : StakerActor Sealed Unsealed}

theorem TrafficOk.send (h : M.TrafficOk cfg headers t) (m : Message)
    (hsigs : ∀ height reply, m = .sigs height reply → M.Unforged cfg headers t.signed reply)
    (hblock : ∀ blk cproof, m = .block blk cproof → M.Genuine cfg headers t.signed blk cproof) :
    M.TrafficOk cfg headers (t.send m) := by
  refine ⟨fun height reply hmem => ?_, fun blk cproof hmem => ?_⟩
  · rcases List.mem_cons.mp hmem with heq | hmem
    · exact hsigs height reply heq.symm
    · exact h.sigs height reply hmem
  · rcases List.mem_cons.mp hmem with heq | hmem
    · exact hblock blk cproof heq.symm
    · exact h.block blk cproof hmem

theorem TrafficOk.send_sigs (h : M.TrafficOk cfg headers t) {height : Nat} {reply : ConsensusProof}
    (hreply : M.Unforged cfg headers t.signed reply) :
    M.TrafficOk cfg headers (t.send (.sigs height reply)) := by
  refine h.send _ ?_ ?_
  · intro k r heq
    cases heq
    exact hreply
  · intro blk cproof heq
    cases heq

theorem TrafficOk.send_block (h : M.TrafficOk cfg headers t) {blk : Block} {cproof : ConsensusProof}
    (hblk : M.Genuine cfg headers t.signed blk cproof) :
    M.TrafficOk cfg headers (t.send (.block blk cproof)) := by
  refine h.send _ ?_ ?_
  · intro k r heq
    cases heq
  · intro b proof heq
    cases heq
    exact hblk

/-- What is known of a staker survives what the others do. -/
theorem ActorOk.flows (h : M.ActorOk genesis cfg headers t i a) {j : ι} (hij : i ≠ j)
    (hflows : Flows j t t') : M.ActorOk genesis cfg headers t' i a where
  node := h.node
  settled := h.settled
  signed := (hflows.others i hij).trans h.signed
  carried := h.carried.mono fun _ _ hgen => hgen.mono hflows.signed
  gathered height map hmap := (h.gathered height map hmap).mono hflows.signed
  decided := h.decided

variable [DecidableEq ι]

/-- **One step of a staker.** -/
theorem ActorStep.ok (hB : M.BuildsStates) (hC : M.ChecksHeader)
    (hsigns : M.SignsHeaders cfg headers) {e : ActorEvent Sealed}
    (hstep : M.ActorStep genesis cfg i t a e t' a')
    (hdecides : ∀ decision, e = .node (.staker (.decide decision)) → decision.header ∈ headers)
    (htraffic : M.TrafficOk cfg headers t) (hok : M.ActorOk genesis cfg headers t i a) :
    M.TrafficOk cfg headers t' ∧ M.ActorOk genesis cfg headers t' i a' := by
  obtain ⟨hflows, hsigned'⟩ := hstep.flows hok.signed
  cases hstep with
  | @node e node hhears hnode =>
    have hmono : ∀ {map}, M.Unforged cfg headers t.signed map →
        M.Unforged cfg headers (Function.update t.signed i node.signed) map :=
      fun h => h.mono hflows.signed
    refine ⟨⟨fun height reply hmem => hmono (htraffic.sigs height reply hmem),
      fun blk cproof hmem => (htraffic.block blk cproof hmem).mono hflows.signed⟩,
      hok.node.nodeStep hB hnode, hok.settled.nodeStep hB hC hok.node hnode, hsigned', ?_, ?_, ?_⟩
    · -- calls
      have hcarried := hok.carried.mono fun _ _ hgen => hgen.mono hflows.signed
      refine hcarried.nodeStep hB hok.node hnode ?_ ?_
      · rintro k blk cproof rfl
        exact (htraffic.block blk cproof (hears_invoke hhears)).mono hflows.signed
      · rintro baseState decision cproof hround rfl
        refine ⟨hok.decided _ _ hround, hmono ?_⟩
        cases hmap : a.node.sigGather[decision.header.height]? with
        | none => exact Unforged.empty
        | some map => exact hok.gathered _ _ hmap
    · -- gathered maps
      refine nodeStep_sigGather hnode (fun height map hmap => hmono (hok.gathered height map hmap))
        ?_ ?_
      · rintro decision rfl
        refine Unforged.decided hsigns (hdecides _ rfl) ?_
        rw [hsigned', decide_signed hnode]
        exact List.mem_cons_self
      · rintro baseState decision reply rfl hround
        refine Unforged.merge (hmono ?_) (hmono (htraffic.sigs _ _ (hears_merge hhears hround)))
        cases hmap : a.node.sigGather[M.nextHeight baseState]? with
        | none => exact Unforged.empty
        | some map => exact hok.gathered _ _ hmap
    · -- decisions
      intro baseState decision hround
      rcases nodeStep_gathering hnode hround with hold | rfl
      · exact hok.decided _ _ hold
      · exact hdecides _ rfl
  | restart hrestart =>
    have hnode' := hok.node.restart hB hrestart
    have hset' := hok.settled.restart hB hC hok.node hrestart
    have hcarried := hok.carried.restart hB hok.node hrestart
    obtain ⟨storage, -, rfl⟩ := restart_cases hrestart
    exact ⟨htraffic, hnode', hset', hsigned', hcarried,
      fun height map hmap => absurd hmap Table.getElem?_empty_ne, nofun⟩
  | @stored height proof hproof =>
    refine ⟨htraffic.send_sigs ?_, hok.node, hok.settled, hsigned', hok.carried, hok.gathered,
      hok.decided⟩
    have hwf := hok.node.shared.chain.wellFormed hB
    have hmem : height ∈ a.node.storage.shared.db.consensusProofs := by
      rw [Std.ExtTreeMap.mem_iff_isSome_getElem?, hproof]
      rfl
    have hheight := (hwf.height_mem height).mp ((hwf.proof_mem height).mp hmem)
    obtain ⟨blk, hblk⟩ := hwf.block_isSome hheight.1 hheight.2
    exact (hok.carried.rows hblk hproof).2
  | unanswered =>
    exact ⟨htraffic, hok.node, hok.settled, hsigned', hok.carried, hok.gathered, hok.decided⟩
  | @gathered height =>
    refine ⟨htraffic.send_sigs ?_, hok.node, hok.settled, hsigned', hok.carried, hok.gathered,
      hok.decided⟩
    cases hmap : a.node.sigGather[height]? with
    | none => exact Unforged.empty
    | some map => exact hok.gathered _ _ hmap
  | block hblk hproof =>
    exact ⟨htraffic.send_block (hok.carried.rows hblk hproof), hok.node, hok.settled, hsigned',
      hok.carried, hok.gathered, hok.decided⟩

end Steps

section Runs

variable [DecidableEq ι] {c : Procs.Config ι (Traffic ι) (StakerActor Sealed Unsealed)}

omit [DecidableEq ι] in
theorem ActorOk.fresh (hB : M.BuildsStates) (i : ι) :
    M.ActorOk genesis cfg headers ⟨[], fun _ => []⟩ i ⟨M.freshNode genesis, []⟩ where
  node := (freshNode_opened.ok hB).1
  settled := (freshNode_opened.ok hB).2
  signed := rfl
  carried := .fresh
  gathered _ _ hmap := absurd hmap Table.getElem?_empty_ne
  decided := nofun

theorem stakers_outline (hB : M.BuildsStates) (hC : M.ChecksHeader)
    (hsigns : M.SignsHeaders cfg headers) :
    (M.stakers genesis cfg).Outline (M.Sound cfg headers) (M.TrafficOk cfg headers)
      (M.ActorOk genesis cfg headers) Flows where
  init := by
    rintro t rfl
    exact ⟨nofun, nofun⟩
  start := by
    rintro t i rfl
    exact ActorOk.fresh hB i
  step := by
    intro c i e t' a' _ hgood htraffic hok hstep
    have hcases := actorStep_cases hstep
    have hdecides : ∀ decision, e = .node (.staker (.decide decision)) →
        decision.header ∈ headers := by
      rintro decision rfl
      exact hgood
    obtain ⟨htraffic', hok'⟩ := hcases.ok hB hC hsigns hdecides htraffic hok
    exact ⟨htraffic', hok', (hcases.flows hok.signed).1⟩
  stable hij _ hflows hok := hok.flows hij hflows
  env := by
    intro c m t' _ hgood htraffic hok hstep
    have ht : t' = c.shared.send m := (Option.some.inj hstep).symm
    subst ht
    refine ⟨?_, fun i => ?_⟩
    · refine htraffic.send m ?_ ?_
      · rintro height reply rfl
        exact hgood
      · rintro blk cproof rfl
        exact hgood
    · have h := hok i
      exact ⟨h.node, h.settled, h.signed, h.carried, h.gathered, h.decided⟩

omit [DecidableEq ι] in
/-- A key that signed two blocks of a height is not trusted for it. -/
theorem untrusted_of_double
    (hok : ∀ i, M.ActorOk genesis cfg headers c.shared i (c.procs i)) {h : Nat}
    {blk₁ blk₂ : Block} {cproof₁ cproof₂ : ConsensusProof}
    (hgen₁ : M.Genuine cfg headers c.shared.signed blk₁ cproof₁)
    (hgen₂ : M.Genuine cfg headers c.shared.signed blk₂ cproof₂) (hh₁ : blk₁.header.height = h)
    (hh₂ : blk₂.header.height = h) (hne : M.headerHash blk₁.header ≠ M.headerHash blk₂.header)
    {pubkey : Ed25519PK} (hs₁ : M.signedBy (M.headerHash blk₁.header) cproof₁ pubkey = true)
    (hs₂ : M.signedBy (M.headerHash blk₂.header) cproof₂ pubkey = true) :
    Untrusted cfg c h pubkey := by
  rintro i rfl
  by_contra hfailed
  have hmem₁ := hgen₁.2.signedBy hgen₁.1 hs₁
  have hmem₂ := hgen₂.2.signedBy hgen₂.1 hs₂
  rw [(hok i).signed, hh₁] at hmem₁
  rw [(hok i).signed, hh₂] at hmem₂
  exact hne ((hok i).settled.signed_unique hfailed hmem₁ hmem₂)

end Runs

/-! ## Two chains -/

/-- Two chains that agree whenever they agree on the state below agree. -/
theorem header_eq_of_parents (hB : M.BuildsStates) {db₁ db₂ : Tables} (h₁ : M.Chain genesis db₁)
    (h₂ : M.Chain genesis db₂)
    (hstakes : ∀ h, h ≤ db₁.highestHeight → h ≤ db₂.highestHeight →
      M.stakesHash (M.getStakeset genesis db₁ h) = M.stakesHash (M.getStakeset genesis db₂ h) →
        M.getStakeset genesis db₁ h = M.getStakeset genesis db₂ h)
    (hnext : ∀ {h : Nat} {s₁ s₂ : Sealed} {blk₁ blk₂ : Block} {cproof₁ cproof₂ : ConsensusProof},
      M.stateAt genesis db₁ h = .ok s₁ → M.stateAt genesis db₂ h = .ok s₂ →
      M.rawStakes s₁ = M.rawStakes s₂ → db₁.block? (h + 1) = some blk₁ →
      db₂.block? (h + 1) = some blk₂ → db₁.consensusProofs[h + 1]? = some cproof₁ →
      db₂.consensusProofs[h + 1]? = some cproof₂ → blk₁.header = blk₂.header) :
    ∀ h {blk₁ blk₂}, db₁.block? h = some blk₁ → db₂.block? h = some blk₂ →
      blk₁.header = blk₂.header := by
  have hwf₁ := h₁.wellFormed hB
  have hwf₂ := h₂.wellFormed hB
  intro h
  induction h with
  | zero =>
    intro blk₁ blk₂ hblk₁ _
    have := (hwf₁.block_le hblk₁).1
    omega
  | succ h ih =>
    intro blk₁ blk₂ hblk₁ hblk₂
    obtain ⟨cproof₁, s₁, s₁', hproof₁, hs₁, -⟩ := hwf₁.accepted hblk₁
    obtain ⟨cproof₂, s₂, s₂', hproof₂, hs₂, -⟩ := hwf₂.accepted hblk₂
    refine hnext hs₁ hs₂ ?_ hblk₁ hblk₂ hproof₁ hproof₂
    rcases Nat.eq_zero_or_pos h with rfl | hpos
    · rw [stateAt_zero] at hs₁ hs₂
      cases hs₁
      cases hs₂
      rfl
    · obtain ⟨b₁, hb₁, hhash₁, rfl⟩ := stateAt_ok hpos hs₁
      obtain ⟨b₂, hb₂, hhash₂, rfl⟩ := stateAt_ok hpos hs₂
      rw [hB.rawStakes_fromBlock, hB.rawStakes_fromBlock]
      apply hstakes h (hwf₁.block_le hb₁).2 (hwf₂.block_le hb₂).2
      rw [hhash₁, hhash₂, ih hb₁ hb₂]

section Agree

variable {c : Procs.Config ι (Traffic ι) (StakerActor Sealed Unsealed)}

/-- The stakers agree in every state in which their blocks carry quorums and few are untrusted. -/
theorem header_eq_of_few (hB : M.BuildsStates) (hsigns : M.SignsHeaders cfg headers)
    (hok : ∀ i, M.ActorOk genesis cfg headers c.shared i (c.procs i))
    (hquorum : ∀ i, M.QuorumStored genesis (c.procs i).node.storage.shared.db)
    (hfew : M.FewUntrusted genesis cfg c) (hstakes : M.StakesTold genesis c) (i j : ι) :
    ∀ h {blk₁ blk₂}, (c.procs i).node.storage.shared.db.block? h = some blk₁ →
      (c.procs j).node.storage.shared.db.block? h = some blk₂ → blk₁.header = blk₂.header := by
  have hchain : ∀ k, M.Chain genesis (c.procs k).node.storage.shared.db :=
    fun k => (hok k).node.shared.chain
  refine header_eq_of_parents hB (hchain i) (hchain j) (fun h => hstakes i j h) ?_
  intro h s₁ s₂ blk₁ blk₂ cproof₁ cproof₂ hs₁ hs₂ hsame hblk₁ hblk₂ hproof₁ hproof₂
  have hgen₁ := (hok i).carried.rows hblk₁ hproof₁
  have hgen₂ := (hok j).carried.rows hblk₂ hproof₂
  have hq₁ : M.HasQuorum (M.rawStakes s₁) blk₁ cproof₁ := hquorum i hblk₁ hproof₁ hs₁
  have hq₂ : M.HasQuorum (M.rawStakes s₁) blk₂ cproof₂ := by
    rw [hsame]
    exact hquorum j hblk₂ hproof₂ hs₂
  have hh₁ := ((hchain i).wellFormed hB).block_height hblk₁
  have hh₂ := ((hchain j).wellFormed hB).block_height hblk₂
  apply hsigns.hash_inj hgen₁.1 hgen₂.1
  -- what the two proofs show
  let shown : Ed25519PK → HashVal → Prop := fun pubkey hash =>
    (hash = M.headerHash blk₁.header ∧ M.signedBy (M.headerHash blk₁.header) cproof₁ pubkey = true) ∨
      (hash = M.headerHash blk₂.header ∧ M.signedBy (M.headerHash blk₂.header) cproof₂ pubkey = true)
  have hshown₁ : ∀ pubkey, M.signedBy (M.headerHash blk₁.header) cproof₁ pubkey = true →
      shown pubkey (M.headerHash blk₁.header) := fun _ hs => Or.inl ⟨rfl, hs⟩
  have hshown₂ : ∀ pubkey, M.signedBy (M.headerHash blk₂.header) cproof₂ pubkey = true →
      shown pubkey (M.headerHash blk₂.header) := fun _ hs => Or.inr ⟨rfl, hs⟩
  refine hash_eq_of_quorums hh₁ hh₂ hshown₁ hshown₂ ?_ hq₁ hq₂
  intro p hp
  refine hfew i h s₁ hs₁ p fun pubkey hpubkey => ?_
  obtain ⟨hd₁, hd₂, -, -, hne, hsig₁, hsig₂⟩ := hp pubkey hpubkey
  rcases hsig₁ with ⟨heq₁, hs₁⟩ | ⟨heq₁, hs₁⟩
  · rcases hsig₂ with ⟨heq₂, -⟩ | ⟨heq₂, hs₂⟩
    · exact absurd (heq₁.trans heq₂.symm) hne
    · rw [heq₁, heq₂] at hne
      exact untrusted_of_double hok hgen₁ hgen₂ hh₁ hh₂ hne hs₁ hs₂
  · rcases hsig₂ with ⟨heq₂, hs₂⟩ | ⟨heq₂, -⟩
    · rw [heq₁, heq₂] at hne
      exact untrusted_of_double hok hgen₁ hgen₂ hh₁ hh₂ hne.symm hs₂ hs₁
    · exact absurd (heq₁.trans heq₂.symm) hne

variable [DecidableEq ι]

theorem stakers_quorumStored (hM : M.EnumeratesStakes) (hB : M.BuildsStates)
    (hc : ((M.stakers genesis cfg).lts.guard (M.Sound cfg headers)).Reachable c) (i : ι) :
    M.QuorumStored genesis (c.procs i).node.storage.shared.db :=
  quorumStored_of_harmless hM hB (stakers_storage (fun _ _ _ hgood => hgood) hc i)

/-- **Stakers agree.** In every run of a network of stakers (with any messages from outside, any
decisions of streamlette, processes killed and started again, block sync from anybody) in which
nobody forges a signature of a staker and the stake ahead is harmless in each check that accepts a
block: if at each height the keys that no staker has, or whose staker had a round of that height fail,
hold at most a third of the stake, then any two stakers have the same header at every height both
have stored. -/
theorem stakers_agree (hM : M.EnumeratesStakes) (hB : M.BuildsStates) (hC : M.ChecksHeader)
    (hsigns : M.SignsHeaders cfg headers)
    (hc : ((M.stakers genesis cfg).lts.guard (M.Sound cfg headers)).Reachable c)
    (hfew : M.FewUntrusted genesis cfg c) (hstakes : M.StakesTold genesis c)
    {i j : ι} {h : Nat} {blk₁ blk₂ : Block}
    (hblk₁ : (c.procs i).node.storage.shared.db.block? h = some blk₁)
    (hblk₂ : (c.procs j).node.storage.shared.db.block? h = some blk₂) :
    blk₁.header = blk₂.header := by
  obtain ⟨-, hok⟩ := (stakers_outline hB hC hsigns).reachable hc
  exact header_eq_of_few hB hsigns hok (stakers_quorumStored hM hB hc) hfew hstakes i j h hblk₁ hblk₂

end Agree

end Melstf

/-! ## Three stakers -/

namespace Ledger

/-- The stakers with the keys 1, 2 and 3. -/
def stakerOf (i : Fin 3) : StakerConfig where
  publicKey := BitVec.ofNat 256 (i.val + 1)
  sign := sign (BitVec.ofNat 256 (i.val + 1))
  payoutAddr := 0
  targetFeeMultiplier := 1000

abbrev Net : Type :=
  Procs.Config (Fin 3) (Traffic (Fin 3)) (StakerActor Ledger.Sealed Ledger.Unsealed)

abbrev NetEvent : Type := (Fin 3 × ActorEvent Ledger.Sealed) ⊕ Message

def netStart : Net := ⟨⟨[], fun _ => []⟩, fun _ => ⟨ledger.freshNode threeStakers, []⟩⟩

def netAfter (labels : List NetEvent) : Net :=
  ((ledger.stakers threeStakers stakerOf).run netStart labels).getD netStart

/-- Steps of one staker's node. -/
def nodeSteps (i : Fin 3) (events : List (NodeEvent Ledger.Sealed)) : List NetEvent :=
  events.map fun e => .inl (i, .node e)

/-- A staker goes through its first round up to the decision. -/
def decides (i : Fin 3) (blk : Block) : List NetEvent :=
  nodeSteps i (readGenesis ++ [.staker .propose, .staker .rebase, .staker (.read false),
    .staker (.read false), .staker .wait, .staker .propose, .staker (.decide blk)])

/-- A staker answers `get_sigs` with what it has gathered. -/
def servesSigs (i : Fin 3) : List NetEvent :=
  [.inl (i, .getConsensus 1), .inl (i, .getGathered 1)]

/-- All decide the first block; the first staker gathers the signatures of the others and calls
`apply_block`. -/
def oneSubmits : List NetEvent :=
  let blk := firstBlock 1
  decides 0 blk ++ decides 1 blk ++ decides 2 blk ++ servesSigs 1 ++ servesSigs 2 ++
    nodeSteps 0 [.staker (.merge (proofBy [2] blk)), .staker (.merge (proofBy [3] blk)),
      .staker (.submit 0)]

/-- The call commits it. -/
def oneAhead : List NetEvent :=
  oneSubmits ++
    nodeSteps 0 ((Melstf.soloCall 0 0 (firstBlock 1) ∅).tail.map .storage ++ [.staker .finish])

/-- The second staker gets it by block sync. -/
def agreeing : List NetEvent :=
  let blk := firstBlock 1
  oneAhead ++ [.inl (0, .getBlock 1)] ++
    nodeSteps 1 ((Melstf.soloCall 0 0 blk (proofBy [1, 2, 3] blk)).map .storage ++ [.staker .skip])

/-- Nobody outside takes part, the first block is decided, and checks are harmless. -/
def insiders (c : Net) : NetEvent → Bool
  | .inl (i, .node (.storage label)) =>
    decide (ledger.ChecksMeet ledger.HarmlessCheck (c.procs i).node.storage label)
  | .inl (_, .node (.staker (.decide decision))) => decide (decision = firstBlock 1)
  | .inr _ => false
  | _ => true

/-- The stakers' part of a run whose headers are those of the first block. -/
theorem insiders_sound (c : Net) (label : NetEvent) (h : insiders c label = true) :
    ledger.Sound stakerOf {(firstBlock 1).header} c label := by
  unfold insiders at h
  split at h
  · have hmeet : ledger.ChecksMeet ledger.HarmlessCheck _ _ := of_decide_eq_true h
    exact hmeet
  · exact congrArg Block.header (of_decide_eq_true h)
  · cases h
  · next hstorage hdecide hmessage =>
    unfold Melstf.Sound
    split
    · exact absurd rfl (hstorage _ _)
    · exact absurd rfl (hdecide _ _)
    · exact absurd rfl (hmessage _)
    · exact absurd rfl (hmessage _)
    · trivial

theorem signsHeaders_single (hd : Header) : ledger.SignsHeaders stakerOf {hd} where
  hash_inj := Set.injOn_singleton _ _
  keys_inj := by
    intro i j
    revert i j
    decide
  sign_only := by
    rintro i hd₁ rfl hd₂ rfl _
    rfl

/-- Where every staked key has a staker that never failed, no stake is untrusted. -/
theorem untrusted_none {c : Net} {docs : List StakeDoc} {epoch h : Nat} {p : Ed25519PK → Bool}
    (hdocs : ∀ doc ∈ docs, ∃ i, (stakerOf i).publicKey = doc.pubkey ∧
      (c.procs i).node.failed = [])
    (hp : ∀ pubkey, p pubkey = true → Melstf.Untrusted stakerOf c h pubkey) :
    activeStake docs epoch p = 0 := by
  have hle : activeStake docs epoch p ≤ activeStake docs epoch fun _ => false := by
    apply weigh_mono
    intro doc hdoc hcounted
    obtain ⟨-, hkey⟩ := Bool.and_eq_true_iff.mp hcounted
    obtain ⟨i, hi, hfailed⟩ := hdocs doc hdoc
    have hmem := hp _ hkey i hi
    rw [hfailed] at hmem
    cases hmem
  have hzero : activeStake docs epoch (fun _ => false) = 0 := by
    simp [activeStake, weigh]
  omega

theorem stakers_wellFormed {c : Net} {headers : Set Header}
    (hc : ((ledger.stakers threeStakers stakerOf).lts.guard
      (ledger.Sound stakerOf headers)).Reachable c) (i : Fin 3) :
    ledger.WellFormed threeStakers (c.procs i).node.storage.shared.db :=
  (Melstf.storage_reachable ledger_builds
    (Melstf.stakers_storage (Q := ledger.HarmlessCheck) (fun _ _ _ hgood => hgood)
      hc i).of_guard).1.chain.wellFormed ledger_builds

/-- Everybody has one table of stakes. -/
def OneTable (c : Net) : Prop :=
  ∀ i : Fin 3, (c.procs i).node.storage.shared.db.stakes = (c.procs 0).node.storage.shared.db.stakes

theorem OneTable.getStakeset {c : Net} (htables : OneTable c) (i : Fin 3) (h : Nat) :
    ledger.getStakeset threeStakers (c.procs i).node.storage.shared.db h =
      ledger.getStakeset threeStakers (c.procs 0).node.storage.shared.db h := by
  unfold Melstf.getStakeset
  rw [htables i]

theorem OneTable.told {c : Net} (htables : OneTable c) : ledger.StakesTold threeStakers c := by
  intro i j h _ _ _
  rw [htables.getStakeset i, htables.getStakeset j]

/-- While the stakes up to the first block are those of the stakers, and none of them failed. -/
theorem OneTable.few {c : Net} {headers : Set Header} (htables : OneTable c)
    (hc : ((ledger.stakers threeStakers stakerOf).lts.guard
      (ledger.Sound stakerOf headers)).Reachable c)
    (hheights : ∀ i, (c.procs i).node.storage.shared.db.highestHeight ≤ 1)
    (hfailed : ∀ i, (c.procs i).node.failed = [])
    (hkeys : ∀ h ≤ 1, ∀ doc ∈ (ledger.getStakeset threeStakers
      (c.procs 0).node.storage.shared.db h).docs, ∃ i, (stakerOf i).publicKey = doc.pubkey) :
    ledger.FewUntrusted threeStakers stakerOf c := by
  intro i h s hs p hp
  have hgenesis : ∀ doc ∈ (ledger.rawStakes (ledger.genesisState threeStakers)).docs,
      ∃ i, (stakerOf i).publicKey = doc.pubkey := by
    decide
  have hstakes : ∀ doc ∈ (ledger.rawStakes s).docs, ∃ i, (stakerOf i).publicKey = doc.pubkey := by
    rcases Nat.eq_zero_or_pos h with rfl | hpos
    · rw [Melstf.stateAt_zero] at hs
      cases hs
      exact hgenesis
    · obtain ⟨blk, hblk, -, rfl⟩ := Melstf.stateAt_ok hpos hs
      rw [ledger_builds.rawStakes_fromBlock, htables.getStakeset i h]
      have hle := ((stakers_wellFormed hc i).block_le hblk).2
      exact hkeys h (Nat.le_trans hle (hheights i))
  rw [untrusted_none (fun doc hdoc => (hstakes doc hdoc).imp fun i hi => ⟨hi, hfailed i⟩) hp]
  exact Nat.zero_le _

theorem agreeing_reaches : ((ledger.stakers threeStakers stakerOf).lts.guard
    (ledger.Sound stakerOf {(firstBlock 1).header})).Reaches netStart (netAfter agreeing) := by
  have hrun : ((ledger.stakers threeStakers stakerOf).lts.guard
      fun c label => insiders c label = true).Reaches netStart (netAfter agreeing) :=
    Procs.reaches_end_guarded (by with_unfolding_all decide)
  exact hrun.guard_mono insiders_sound

theorem agreeing_reachable : ((ledger.stakers threeStakers stakerOf).lts.guard
    (ledger.Sound stakerOf {(firstBlock 1).header})).Reachable (netAfter agreeing) :=
  ⟨netStart, ⟨rfl, rfl⟩, agreeing_reaches⟩

theorem agreeing_oneTable : OneTable (netAfter agreeing) := by
  unfold OneTable
  with_unfolding_all decide

theorem agreeing_told : ledger.StakesTold threeStakers (netAfter agreeing) := agreeing_oneTable.told

theorem agreeing_few : ledger.FewUntrusted threeStakers stakerOf (netAfter agreeing) :=
  agreeing_oneTable.few agreeing_reachable (by with_unfolding_all decide)
    (by with_unfolding_all decide) (by with_unfolding_all decide)

end Ledger

namespace Melstf

theorem stakers_agree_first :
    ∃ blk₁ blk₂,
      ((Ledger.netAfter Ledger.agreeing).procs 0).node.storage.shared.db.block? 1 = some blk₁ ∧
      ((Ledger.netAfter Ledger.agreeing).procs 1).node.storage.shared.db.block? 1 = some blk₂ ∧
      blk₁.header = blk₂.header := by
  have hstored :
      ((Ledger.netAfter Ledger.agreeing).procs 0).node.storage.shared.db.block? 1 =
        some (Ledger.firstBlock 1) ∧
      ((Ledger.netAfter Ledger.agreeing).procs 1).node.storage.shared.db.block? 1 =
        some (Ledger.firstBlock 1) := by
    with_unfolding_all decide
  refine ⟨_, _, hstored.1, hstored.2, ?_⟩
  exact stakers_agree ledger_enumerates ledger_builds ledger_checks (Ledger.signsHeaders_single _)
    Ledger.agreeing_reachable Ledger.agreeing_few Ledger.agreeing_told hstored.1 hstored.2

end Melstf

end Melnode
