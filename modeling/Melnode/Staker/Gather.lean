import Melnode.Staker.Invariant

/-!
# Gathering signatures

What a neighbour sends is put into the map unchecked, over what is there, and `get_proof` counts
keys. While the entries for the staker's own key and for keys with votes verify, the own entry stays
valid and the votes that `get_proof` counts are votes of valid signatures (`gathered_verifies`).
-/

namespace Melnode

open Lib

theorem getElem?_mergeReply (existing reply : ConsensusProof) (pk : Ed25519PK) :
    (mergeReply existing reply)[pk]? = reply[pk]?.or existing[pk]? := by
  obtain ⟨hin, hout⟩ := Table.getElem?_foldl_insert id (m := existing)
    (Table.nodup_keys_toList reply) pk
  unfold mergeReply
  cases hpk : reply[pk]? with
  | some sig => exact hin sig (Std.ExtTreeMap.mem_toList_iff_getElem?_eq_some.mpr hpk)
  | none =>
    refine hout ?_
    rw [Std.ExtTreeMap.map_fst_toList_eq_keys, Std.ExtTreeMap.mem_keys,
      Std.ExtTreeMap.mem_iff_isSome_getElem?, hpk]
    exact Bool.false_ne_true

namespace Melstf

variable {Sealed Unsealed : Type} {M : Melstf Sealed Unsealed} {genesis : GenesisConfig}
  {cfg : StakerConfig}

/-- The votes of a key in the epoch of the base state, as `get_proof` counts them. -/
def baseVotes (M : Melstf Sealed Unsealed) (baseState : Sealed) (pk : Ed25519PK) : Nat :=
  (M.rawStakes baseState).votes (M.epoch (M.header baseState).height) pk

/-- An entry for the staker's own key, or for a key with votes, verifies over the decided header. -/
def EntryVerifies (M : Melstf Sealed Unsealed) (cfg : StakerConfig) (baseState : Sealed)
    (decision : Block) (pk : Ed25519PK) (sig : Bytes) : Prop :=
  pk = cfg.publicKey ∨ 0 < M.baseVotes baseState pk →
    M.verify pk (M.headerHash decision.header) sig = true

instance (baseState : Sealed) (decision : Block) (pk : Ed25519PK) (sig : Bytes) :
    Decidable (M.EntryVerifies cfg baseState decision pk sig) :=
  inferInstanceAs (Decidable (_ → _))

/-- A reply that is merged has no entry that matters and does not verify. -/
def repliesVerify (M : Melstf Sealed Unsealed) (cfg : StakerConfig) (n : Node Sealed Unsealed) :
    NodeEvent Sealed → Bool
  | .staker (.merge reply) =>
    match n.round with
    | .gathering baseState decision =>
      reply.toList.all fun entry => decide (M.EntryVerifies cfg baseState decision entry.1 entry.2)
    | _ => true
  | _ => true

/-- The keys whose signatures verify have more votes than `vote_threshold`. -/
def QuorumVerifies (M : Melstf Sealed Unsealed) (baseState : Sealed) (decision : Block)
    (map : ConsensusProof) : Prop :=
  2 * (M.rawStakes baseState).totalVotes (M.epoch (M.header baseState).height) / 3 <
    M.signedStake (M.rawStakes baseState) (M.epoch (M.header baseState).height)
      (M.headerHash decision.header) map

/-- A gathered map: the staker's own entry is there, and every entry that matters verifies. -/
structure Gathered (M : Melstf Sealed Unsealed) (cfg : StakerConfig) (baseState : Sealed)
    (decision : Block) (map : ConsensusProof) : Prop where
  own : ∃ sig, map[cfg.publicKey]? = some sig
  verifies : ∀ pk sig, map[pk]? = some sig → M.EntryVerifies cfg baseState decision pk sig

section Map

variable {baseState : Sealed} {decision : Block} {map : ConsensusProof}

theorem Gathered.own_verifies (h : M.Gathered cfg baseState decision map) :
    ∃ sig, map[cfg.publicKey]? = some sig ∧
      M.verify cfg.publicKey (M.headerHash decision.header) sig = true := by
  obtain ⟨sig, hsig⟩ := h.own
  exact ⟨sig, hsig, h.verifies _ _ hsig (Or.inl rfl)⟩

/-- The map right after the decision. -/
theorem Gathered.decided
    (hsign : M.verify cfg.publicKey (M.headerHash decision.header)
      (cfg.sign (M.headerHash decision.header)) = true) :
    M.Gathered cfg baseState decision
      ((∅ : ConsensusProof).insert cfg.publicKey (cfg.sign (M.headerHash decision.header))) := by
  refine ⟨⟨cfg.sign (M.headerHash decision.header), by simp⟩, ?_⟩
  intro pk sig hsig _
  rcases Table.of_getElem?_insert hsig with ⟨rfl, rfl⟩ | hsig
  · exact hsign
  · exact absurd hsig Table.getElem?_empty_ne

theorem Gathered.merge (h : M.Gathered cfg baseState decision map) {reply : ConsensusProof}
    (hreply : ∀ entry ∈ reply.toList, M.EntryVerifies cfg baseState decision entry.1 entry.2) :
    M.Gathered cfg baseState decision (mergeReply map reply) := by
  refine ⟨?_, ?_⟩
  · obtain ⟨sig, hsig⟩ := h.own
    rw [getElem?_mergeReply, hsig]
    cases reply[cfg.publicKey]? with
    | some sig' => exact ⟨sig', rfl⟩
    | none => exact ⟨sig, rfl⟩
  · intro pk sig hsig
    rw [getElem?_mergeReply] at hsig
    rcases Option.or_eq_some_iff.mp hsig with hin | ⟨-, hold⟩
    · exact hreply (pk, sig) (Std.ExtTreeMap.mem_toList_iff_getElem?_eq_some.mpr hin)
    · exact h.verifies pk sig hold

/-- The votes `get_proof` counts are those of keys whose signatures verify. -/
theorem Gathered.quorum (h : M.Gathered cfg baseState decision map) {ε : Type}
    {map' : ConsensusProof}
    (hproof : (M.getProof baseState map : Except (Fault ε) (Option ConsensusProof)) =
      .ok (some map')) : map' = map ∧ M.QuorumVerifies baseState decision map' := by
  obtain ⟨rfl, -, hquorum⟩ := getProof_some hproof
  refine ⟨rfl, ?_⟩
  have hle : activeStake (M.rawStakes baseState).docs (M.epoch (M.header baseState).height)
      (fun pk => map'.keys.contains pk) ≤
      M.signedStake (M.rawStakes baseState) (M.epoch (M.header baseState).height)
        (M.headerHash decision.header) map' := by
    apply weigh_mono_pos
    intro doc hdoc hcounted hpos
    obtain ⟨hactive, hkey⟩ := Bool.and_eq_true_iff.mp hcounted
    have hmem : doc.pubkey ∈ map' := by simpa using hkey
    obtain ⟨sig, hsig⟩ :=
      Option.isSome_iff_exists.mp (Std.ExtTreeMap.mem_iff_isSome_getElem?.mp hmem)
    have hvotes : doc.symsStaked ≤ M.baseVotes baseState doc.pubkey :=
      le_weigh StakeDoc.symsStaked hdoc (by simpa using hactive)
    have hverify := h.verifies _ _ hsig (Or.inr (Nat.lt_of_lt_of_le hpos hvotes))
    refine Bool.and_eq_true_iff.mpr ⟨hactive, ?_⟩
    unfold signedBy
    rw [hsig]
    exact hverify
  unfold QuorumVerifies
  omega

end Map

/-! ## All runs -/

/-- What is known of a node whose staker gathers, or has given its map to `apply_block`. -/
structure GatherOk (M : Melstf Sealed Unsealed) (cfg : StakerConfig) (n : Node Sealed Unsealed) :
    Prop where
  gathering : ∀ {baseState : Sealed} {decision : Block}, n.round = .gathering baseState decision →
    ∃ map, n.sigGather[decision.header.height]? = some map ∧
      M.Gathered cfg baseState decision map
  applying : ∀ {baseState : Sealed} {decision : Block} {i : Nat},
    n.round = .applying baseState decision i → ∃ cproof phase,
      n.storage.procs i = .made decision cproof phase ∧ M.QuorumVerifies baseState decision cproof

/-- A round in which there is nothing to know. -/
theorem GatherOk.of_round {n : Node Sealed Unsealed}
    (hgathering : ∀ baseState decision, n.round ≠ .gathering baseState decision)
    (happlying : ∀ baseState decision i, n.round ≠ .applying baseState decision i) :
    M.GatherOk cfg n :=
  ⟨fun h => absurd h (hgathering _ _), fun h => absurd h (happlying _ _ _)⟩

section Steps

variable {n n' : Node Sealed Unsealed}

/-- **One step of the staker**, when what it merges verifies. -/
theorem StakerStep.gather (hC : M.ChecksHeader)
    (hsign : ∀ hash, M.verify cfg.publicKey hash (cfg.sign hash) = true)
    (hok : M.NodeOk genesis n) {e : StakerEvent}
    (hreply : M.repliesVerify cfg n (.staker e) = true)
    (hstep : M.StakerStep genesis cfg n e n') (hgather : M.GatherOk cfg n) : M.GatherOk cfg n' := by
  have hround := hok.round
  cases hstep with
  | listen ok _ => cases ok <;> exact .of_round nofun nofun
  | read => exact .of_round nofun nofun
  | wait => exact .of_round nofun nofun
  | mismatch => exact .of_round nofun nofun
  | propose => exact .of_round nofun nofun
  | rebase => exact .of_round nofun nofun
  | @decide base proposal decision heq hverify =>
    refine ⟨fun h => ?_, nofun⟩
    cases h
    refine ⟨_, ?_, Gathered.decided (hsign _)⟩
    exact Std.ExtTreeMap.getElem?_insert_self
  | @merge base decision reply heq =>
    obtain ⟨map, hmap, hgathered⟩ := hgather.gathering heq
    rw [heq] at hround
    obtain ⟨s, hs⟩ := verifyProposal_iff.mp hround.2
    have hheight : decision.header.height = M.nextHeight base := hC.height_eq hs
    refine ⟨fun h => ?_, fun h => ?_⟩
    · have heq' := h.symm.trans heq
      cases heq'
      refine ⟨mergeReply map reply, ?_, hgathered.merge ?_⟩
      · rw [hheight] at hmap ⊢
        show (n.sigGather.insert _ _)[M.nextHeight base]? = _
        rw [hmap]
        exact Std.ExtTreeMap.getElem?_insert_self
      · simpa [repliesVerify, heq] using hreply
    · have heq' := h.symm.trans heq
      cases heq'
  | @submit base decision cproof i storage heq hproof hexec =>
    obtain ⟨map, hmap, hgathered⟩ := hgather.gathering heq
    rw [hmap] at hproof
    obtain ⟨-, hquorum⟩ := hgathered.quorum hproof
    refine ⟨nofun, fun h => ?_⟩
    cases h
    exact ⟨cproof, .waiting, submit_call hexec, hquorum⟩
  | finishOk => exact .of_round nofun nofun
  | finishErr => exact .of_round nofun nofun
  | skip => exact .of_round nofun nofun
  | skipCall => exact .of_round nofun nofun
  | crash e => exact ⟨hgather.gathering, hgather.applying⟩

theorem gather_reachable (hB : M.BuildsStates) (hC : M.ChecksHeader)
    (hsign : ∀ hash, M.verify cfg.publicKey hash (cfg.sign hash) = true)
    (hn : ((M.node genesis cfg).guard fun t e => M.repliesVerify cfg t e = true).Reachable n) :
    M.GatherOk cfg n := by
  refine hn.invariant_of_reachable (I := M.GatherOk cfg) ?_ ?_
  · intro t ht
    refine .of_round ?_ ?_
    · intro baseState decision
      rw [ht.round]
      nofun
    · intro baseState decision i
      rw [ht.round]
      nofun
  · rintro t e t' ht hgather ⟨hreply, hstep⟩
    cases e with
    | staker e =>
      exact (stakerStep_cases hstep).2.gather hC hsign (node_reachable hB ht.of_guard) hreply hgather
    | storage label =>
      obtain ⟨hleaves, storage, hexec, rfl⟩ := nodeStep_storage_eq hstep
      refine ⟨hgather.gathering, fun h => ?_⟩
      obtain ⟨cproof, phase, hcall, hquorum⟩ := hgather.applying h
      obtain ⟨phase', hcall'⟩ := exec_made hexec hcall
      exact ⟨cproof, phase', hcall', hquorum⟩

end Steps

/-- **Gathered signatures verify.** In every run in which no reply with a bad entry for the staker's
own key or for a key with votes is merged: while the staker gathers, its own entry is a valid
signature over the decided header, and when `get_proof` returns the map, the keys whose signatures
verify have more votes than the threshold; and so they have in the proof given to `apply_block`. -/
theorem gathered_verifies (hB : M.BuildsStates) (hC : M.ChecksHeader)
    (hsign : ∀ hash, M.verify cfg.publicKey hash (cfg.sign hash) = true)
    {n : Node Sealed Unsealed}
    (hn : ((M.node genesis cfg).guard fun t e => M.repliesVerify cfg t e = true).Reachable n) :
    (∀ baseState decision, n.round = .gathering baseState decision →
      ∃ map sig, n.sigGather[decision.header.height]? = some map ∧
        map[cfg.publicKey]? = some sig ∧
        M.verify cfg.publicKey (M.headerHash decision.header) sig = true ∧
        ∀ map', M.getProof baseState map = (.ok (some map') : Except (Fault ApplyError) _) →
          M.QuorumVerifies baseState decision map') ∧
    ∀ baseState decision i, n.round = .applying baseState decision i →
      ∃ cproof phase, n.storage.procs i = .made decision cproof phase ∧
        M.QuorumVerifies baseState decision cproof := by
  have hgather := gather_reachable hB hC hsign hn
  refine ⟨fun baseState decision h => ?_, fun baseState decision i h => hgather.applying h⟩
  obtain ⟨map, hmap, hgathered⟩ := hgather.gathering h
  obtain ⟨sig, hsig, hverify⟩ := hgathered.own_verifies
  exact ⟨map, sig, hmap, hsig, hverify, fun map' hproof => (hgathered.quorum hproof).2⟩

end Melstf

namespace Ledger

/-- A round that gathers the signatures of keys 2 and 3 and calls `apply_block`. -/
def honestRound : List (NodeEvent Sealed) := [.staker (.listen true)] ++ roundOn (firstBlock 1) 0

/-- Empty signatures for every key. -/
def garbage : ConsensusProof := (((∅ : ConsensusProof).insert 1 []).insert 2 []).insert 3 []

/-- The round decides the first block and a neighbour replies with empty signatures. -/
def spoiledRound : List (NodeEvent Sealed) :=
  readGenesis ++ [.staker .propose, .staker (.decide (firstBlock 1)), .staker (.merge garbage)]

end Ledger

namespace Melstf

theorem gathered_verifies_honest :
    let n := Ledger.nodeAfter Ledger.honestRound
    (∀ baseState decision, n.round = .gathering baseState decision →
      ∃ map sig, n.sigGather[decision.header.height]? = some map ∧
        map[Ledger.staker.publicKey]? = some sig ∧
        ledger.verify Ledger.staker.publicKey (ledger.headerHash decision.header) sig = true ∧
        ∀ map', ledger.getProof baseState map = (.ok (some map') : Except (Fault ApplyError) _) →
          ledger.QuorumVerifies baseState decision map') ∧
    ∀ baseState decision i, n.round = .applying baseState decision i →
      ∃ cproof phase, n.storage.procs i = .made decision cproof phase ∧
        ledger.QuorumVerifies baseState decision cproof :=
  gathered_verifies ledger_builds ledger_checks (fun _ => beq_self_eq_true _)
    ⟨_, Ledger.nodeStart_opened, Ledger.nodeAfter_guarded (by decide +kernel)⟩

/-- One reply displaces the staker's own signature and makes up a quorum of keys: `get_proof` returns
the map, no signature in it verifies, and the vote check refuses it. -/
theorem gathered_garbage :
    let n := Ledger.nodeAfter Ledger.spoiledRound
    let baseState := ledger.genesisState Ledger.threeStakers
    let decision := Ledger.firstBlock 1
    (ledger.node Ledger.threeStakers Ledger.staker).Reachable n ∧
      n.round = .gathering baseState decision ∧
      n.sigGather[decision.header.height]? = some Ledger.garbage ∧
      Ledger.garbage[Ledger.staker.publicKey]? = some [] ∧
      ledger.verify Ledger.staker.publicKey (ledger.headerHash decision.header) [] = false ∧
      ledger.getProof baseState Ledger.garbage =
        (.ok (some Ledger.garbage) : Except (Fault ApplyError) _) ∧
      ¬ ledger.QuorumVerifies baseState decision Ledger.garbage ∧
      ledger.voteCheck (ledger.rawStakes baseState) decision Ledger.garbage ≠ .ok () := by
  refine ⟨⟨_, Ledger.nodeStart_opened, Ledger.nodeAfter_reaches (by decide +kernel)⟩,
    by decide +kernel, by decide +kernel, by decide +kernel, by decide +kernel, by decide +kernel, ?_,
    by decide +kernel⟩
  unfold QuorumVerifies
  decide +kernel

end Melstf

end Melnode
