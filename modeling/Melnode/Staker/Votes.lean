import Melnode.Storage.Rows

/-!
# The staker's vote count

`get_proof` counts the votes of the gathered keys, one `StakeSet::votes` per key, in the epoch of the
base state; `apply_block` counts document by document in the epoch of the block. Within an epoch the
two agree (`voteCheck_of_getProof`); at the first height of an epoch they count different stakes.
-/

namespace Melnode

open Lib

namespace Melstf

variable {Sealed Unsealed : Type} (M : Melstf Sealed Unsealed)

/-- The sum of `stakes.votes(epoch, pk)` over the keys. -/
def sumVotes {ε : Type} (stakes : StakeSet) (epoch : Nat) :
    List Ed25519PK → Nat → Except (Fault ε) Nat
  | [], sum => .ok sum
  | pk :: keys, sum => do
    let sum ← checkedAdd sum (stakes.votes epoch pk)
    sumVotes stakes epoch keys sum

/-- `vote_threshold`. -/
def voteThreshold {ε : Type} (stakes : StakeSet) (epoch : Nat) : Except (Fault ε) Nat := do
  let twice ← checkedMul (stakes.totalVotes epoch) 2
  pure (twice / 3)

/-- `get_proof`: the map, if its keys have more votes than the threshold. -/
def getProof {ε : Type} (baseState : Sealed) (map : ConsensusProof) :
    Except (Fault ε) (Option ConsensusProof) := do
  let stakes := M.rawStakes baseState
  let epoch := M.epoch (M.header baseState).height
  let threshold ← voteThreshold stakes epoch
  let votes ← sumVotes stakes epoch map.keys 0
  pure (if threshold < votes then some map else none)

section Count

variable {M} {ε : Type}

theorem sumVotes_ok {stakes : StakeSet} {epoch : Nat} : ∀ {keys : List Ed25519PK} {sum total : Nat},
    (sumVotes stakes epoch keys sum : Except (Fault ε) Nat) = .ok total →
      total = sum + (keys.map (stakes.votes epoch)).sum
  | [], sum, total, h => by
    cases h
    rfl
  | pk :: keys, sum, total, h => by
    unfold sumVotes at h
    by_cases hfit : sum + stakes.votes epoch pk < u128Bound
    · simp only [checkedAdd, hfit, ite_true, bind, Except.bind] at h
      rw [sumVotes_ok h, List.map_cons, List.sum_cons, Nat.add_assoc]
    · simp [checkedAdd, hfit, bind, Except.bind] at h

/-- The votes of the keys of a map are the stake of the documents whose key is in it. -/
theorem sum_votes_keys (stakes : StakeSet) (epoch : Nat) (map : ConsensusProof) :
    (map.keys.map (stakes.votes epoch)).sum =
      activeStake stakes.docs epoch fun pk => map.keys.contains pk := by
  have hnodup : map.keys.Nodup := Std.ExtTreeMap.nodup_keys
  exact sum_weigh_keys StakeDoc.symsStaked (fun d : StakeDoc => d.activeIn epoch) StakeDoc.pubkey
    stakes.docs hnodup

theorem voteThreshold_ok {stakes : StakeSet} {epoch threshold : Nat}
    (h : (voteThreshold stakes epoch : Except (Fault ε) Nat) = .ok threshold) :
    2 * stakes.totalVotes epoch < u128Bound ∧ threshold = 2 * stakes.totalVotes epoch / 3 := by
  unfold voteThreshold at h
  by_cases hfit : stakes.totalVotes epoch * 2 < u128Bound
  · simp only [checkedMul, hfit, ite_true, bind, Except.bind, pure, Except.pure,
      Except.ok.injEq] at h
    omega
  · simp [checkedMul, hfit, bind, Except.bind] at h

/-- What it means that `get_proof` returns a map: its keys have more than two thirds of the stake
active in the base state's epoch. -/
theorem getProof_some {baseState : Sealed} {map map' : ConsensusProof}
    (h : (M.getProof baseState map : Except (Fault ε) (Option ConsensusProof)) = .ok (some map')) :
    map' = map ∧
      2 * (M.rawStakes baseState).totalVotes (M.epoch (M.header baseState).height) < u128Bound ∧
      2 * (M.rawStakes baseState).totalVotes (M.epoch (M.header baseState).height) <
        3 * activeStake (M.rawStakes baseState).docs (M.epoch (M.header baseState).height)
          fun pk => map.keys.contains pk := by
  unfold getProof at h
  cases hth : (voteThreshold (M.rawStakes baseState) (M.epoch (M.header baseState).height) :
      Except (Fault ε) Nat) with
  | error f => simp [hth, bind, Except.bind] at h
  | ok threshold =>
    cases hsum : (sumVotes (M.rawStakes baseState) (M.epoch (M.header baseState).height) map.keys 0 :
        Except (Fault ε) Nat) with
    | error f => simp [hth, hsum, bind, Except.bind] at h
    | ok votes =>
      simp only [hth, hsum, bind, Except.bind, pure, Except.pure, Except.ok.injEq,
        Option.ite_none_right_eq_some, Option.some.injEq] at h
      obtain ⟨hlt, heq⟩ := h
      obtain ⟨hfit, hthreshold⟩ := voteThreshold_ok hth
      have hvotes := sumVotes_ok hsum
      rw [sum_votes_keys] at hvotes
      exact ⟨heq.symm, hfit, by omega⟩

end Count

/-! ## Against the vote check -/

section Accept

variable {M} {ε : Type}

/-- Every signature of the map verifies over the hash. -/
def AllVerify (M : Melstf Sealed Unsealed) (hash : HashVal) (map : ConsensusProof) : Prop :=
  ∀ pk sig, map[pk]? = some sig → M.verify pk hash sig = true

theorem signedBy_of_allVerify {hash : HashVal} {map : ConsensusProof} (h : M.AllVerify hash map)
    (pk : Ed25519PK) : M.signedBy hash map pk = map.keys.contains pk := by
  unfold signedBy
  cases hpk : map[pk]? with
  | none =>
    have hnot : pk ∉ map.keys := by
      rw [Std.ExtTreeMap.mem_keys, Std.ExtTreeMap.mem_iff_isSome_getElem?, hpk]
      exact Bool.false_ne_true
    simp [hnot]
  | some sig =>
    have hmem : pk ∈ map.keys := by
      rw [Std.ExtTreeMap.mem_keys, Std.ExtTreeMap.mem_iff_isSome_getElem?, hpk]
      rfl
    simp [hmem, h pk sig hpk]

/-- **Within an epoch**: a map that `get_proof` returns, all of whose signatures verify, passes the
vote check exactly when the credited votes fit a `u128`. -/
theorem voteCheck_of_getProof (hM : M.EnumeratesStakes) {baseState : Sealed} {blk : Block}
    {map : ConsensusProof} (hepoch : M.epoch (M.header baseState).height = M.epoch blk.header.height)
    (hverify : M.AllVerify (M.headerHash blk.header) map)
    (hproof : (M.getProof baseState map : Except (Fault ε) (Option ConsensusProof)) =
      .ok (some map)) :
    M.voteCheck (M.rawStakes baseState) blk map = .ok () ↔
      M.VotesFit (M.rawStakes baseState) (M.epoch blk.header.height) (M.headerHash blk.header)
        map := by
  obtain ⟨-, -, hquorum⟩ := getProof_some hproof
  rw [hepoch] at hquorum
  have hsigned : M.signedStake (M.rawStakes baseState) (M.epoch blk.header.height)
      (M.headerHash blk.header) map = activeStake (M.rawStakes baseState).docs
        (M.epoch blk.header.height) fun pk => map.keys.contains pk := by
    unfold signedStake
    congr 1
    funext pk
    exact signedBy_of_allVerify hverify pk
  rw [voteCheck_ok_iff hM, hsigned]
  constructor
  · exact fun h => h.1
  · intro hfit
    exact ⟨hfit, by omega⟩

/-- Every accepted block of height `b + 1` whose gathered signatures verify passes the vote check
with the map `get_proof` returns (where no `u128` sum of the check overflows). -/
def GatheredPasses (M : Melstf Sealed Unsealed) (b : Nat) : Prop :=
  ∀ (baseState : Sealed) (blk : Block) (newState : Sealed) (map : ConsensusProof),
    (M.header baseState).height = b → blk.header.height = b + 1 →
    M.applyBlock baseState blk = .ok newState → M.AllVerify (M.headerHash blk.header) map →
    M.VotesFit (M.rawStakes baseState) (M.epoch (b + 1)) (M.headerHash blk.header) map →
    (M.getProof baseState map : Except (Fault ApplyError) (Option ConsensusProof)) = .ok (some map) →
    M.voteCheck (M.rawStakes baseState) blk map = .ok ()

end Accept

/-! ## The first height of an epoch -/

section Boundary

/-- The small state transition under an arbitrary epoch function. -/
def ledgerWith (epoch : Nat → Nat) : Melstf Ledger.Sealed Ledger.Unsealed :=
  { ledger with epoch := epoch }

variable (epoch : Nat → Nat) (b : Nat)

/-- A stake of key 1 that is active in the epoch of height `b` only. -/
def lastEpochDoc : StakeDoc := ⟨1, epoch b, epoch b + 1, 1⟩

/-- A state at height `b` with that stake. -/
def lastOfEpoch : Ledger.Sealed where
  header := ⟨.custom 2, b, 1000, 0, []⟩
  stakes := (∅ : StakeSet).addStake 1 (lastEpochDoc epoch b)
  transactions := []
  proposerAction := none

theorem docs_lastOfEpoch : (lastOfEpoch epoch b).stakes.docs = [lastEpochDoc epoch b] := by
  unfold StakeSet.docs lastOfEpoch StakeSet.addStake
  rw [Table.toList_insert_empty]
  rfl

theorem lastEpochDoc_active : (lastEpochDoc epoch b).activeIn (epoch b) = true := by
  simp [lastEpochDoc, StakeDoc.activeIn]

theorem lastEpochDoc_inactive (hne : epoch b ≠ epoch (b + 1)) :
    (lastEpochDoc epoch b).activeIn (epoch (b + 1)) = false := by
  unfold lastEpochDoc StakeDoc.activeIn
  by_cases hle : epoch b ≤ epoch (b + 1)
  · have hpast : ¬ epoch (b + 1) < epoch b + 1 := by omega
    simp [hpast]
  · simp [hle]

/-- The block built on it. -/
def firstOfEpoch : Block := Ledger.blockOn (lastOfEpoch epoch b) []

/-- What key 1 alone gathers for that block. -/
def gatheredBoundary : ConsensusProof :=
  (∅ : ConsensusProof).insert 1 (Ledger.sign 1 (Ledger.headerHash (firstOfEpoch epoch b).header))

theorem applyBlock_firstOfEpoch : (ledgerWith epoch).applyBlock (lastOfEpoch epoch b)
    (firstOfEpoch epoch b) =
      .ok (Ledger.sealState (Ledger.nextUnsealed (lastOfEpoch epoch b)) none) := by
  have hempty : ([] : List Transaction).foldlM Ledger.applyTx
      (Ledger.nextUnsealed (lastOfEpoch epoch b)) =
        .ok (Ledger.nextUnsealed (lastOfEpoch epoch b)) := rfl
  exact Ledger.applyBlock_blockOn hempty

theorem allVerify_gatheredBoundary : (ledgerWith epoch).AllVerify
    ((ledgerWith epoch).headerHash (firstOfEpoch epoch b).header) (gatheredBoundary epoch b) := by
  intro pk sig hsig
  unfold gatheredBoundary at hsig
  rcases Table.of_getElem?_insert hsig with ⟨rfl, rfl⟩ | hsig
  · exact beq_self_eq_true _
  · exact absurd hsig Table.getElem?_empty_ne

/-- In the base state's epoch key 1 has all the votes. -/
theorem getProof_gatheredBoundary : ((ledgerWith epoch).getProof (lastOfEpoch epoch b)
    (gatheredBoundary epoch b) : Except (Fault ApplyError) (Option ConsensusProof)) =
      .ok (some (gatheredBoundary epoch b)) := by
  have hkeys : (gatheredBoundary epoch b).keys = [1] := by
    unfold gatheredBoundary
    rw [← Std.ExtTreeMap.map_fst_toList_eq_keys, Table.toList_insert_empty]
    rfl
  have htotal : (lastOfEpoch epoch b).stakes.totalVotes (epoch b) = 1 := by
    unfold StakeSet.totalVotes activeStake
    rw [docs_lastOfEpoch, weigh_cons, lastEpochDoc_active]
    rfl
  have hvotes : (lastOfEpoch epoch b).stakes.votes (epoch b) 1 = 1 := by
    unfold StakeSet.votes activeStake
    rw [docs_lastOfEpoch, weigh_cons, lastEpochDoc_active]
    rfl
  show (do
    let threshold ← voteThreshold (lastOfEpoch epoch b).stakes (epoch b)
    let votes ← sumVotes (lastOfEpoch epoch b).stakes (epoch b) (gatheredBoundary epoch b).keys 0
    pure (if threshold < votes then some (gatheredBoundary epoch b) else none) :
      Except (Fault ApplyError) (Option ConsensusProof)) = _
  unfold voteThreshold
  rw [hkeys, htotal]
  unfold sumVotes
  rw [hvotes]
  rfl

section Expired

variable {epoch b} (hne : epoch b ≠ epoch (b + 1))
include hne

theorem totalVotes_expired : (lastOfEpoch epoch b).stakes.totalVotes (epoch (b + 1)) = 0 := by
  unfold StakeSet.totalVotes activeStake
  rw [docs_lastOfEpoch, weigh_cons, lastEpochDoc_inactive epoch b hne]
  rfl

theorem signedStake_expired (hash : HashVal) (map : ConsensusProof) :
    (ledgerWith epoch).signedStake (lastOfEpoch epoch b).stakes (epoch (b + 1)) hash map = 0 := by
  unfold signedStake activeStake
  rw [docs_lastOfEpoch, weigh_cons, lastEpochDoc_inactive epoch b hne]
  rfl

theorem stakeAhead_expired (hash : HashVal) (map : ConsensusProof) :
    (ledgerWith epoch).stakeAhead (lastOfEpoch epoch b).stakes (epoch (b + 1)) hash map = 0 := by
  have hiter : (ledgerWith epoch).iterDocs (lastOfEpoch epoch b).stakes = [lastEpochDoc epoch b] := by
    show ((lastOfEpoch epoch b).stakes.docs.map encodeStakeDoc).filterMap Melnode.decodeStakeDoc = _
    rw [docs_lastOfEpoch]
    simp [decodeStakeDoc_encodeStakeDoc]
  unfold stakeAhead
  rw [hiter, weighAhead_cons, lastEpochDoc_inactive epoch b hne]
  rfl

theorem votesFit_expired (hash : HashVal) (map : ConsensusProof) :
    (ledgerWith epoch).VotesFit (lastOfEpoch epoch b).stakes (epoch (b + 1)) hash map := by
  unfold VotesFit
  rw [totalVotes_expired hne, signedStake_expired hne, stakeAhead_expired hne]
  decide

/-- At the first height of an epoch the vote check finds no active stake. -/
theorem voteCheck_firstOfEpoch : (ledgerWith epoch).voteCheck (lastOfEpoch epoch b).stakes
    (firstOfEpoch epoch b) (gatheredBoundary epoch b) ≠ .ok () := by
  intro hpass
  have hM : (ledgerWith epoch).EnumeratesStakes := ledger_enumerates
  obtain ⟨-, hlt⟩ := (voteCheck_ok_iff hM _ _ _).mp hpass
  have hheight : (ledgerWith epoch).epoch (firstOfEpoch epoch b).header.height = epoch (b + 1) := rfl
  rw [hheight, totalVotes_expired hne, signedStake_expired hne, stakeAhead_expired hne] at hlt
  exact Nat.lt_irrefl 0 hlt

end Expired

theorem not_gatheredPasses (hne : epoch b ≠ epoch (b + 1)) :
    ¬ (ledgerWith epoch).GatheredPasses b := by
  intro hpasses
  exact voteCheck_firstOfEpoch hne (hpasses (lastOfEpoch epoch b) (firstOfEpoch epoch b) _
    (gatheredBoundary epoch b) rfl rfl (applyBlock_firstOfEpoch epoch b)
    (allVerify_gatheredBoundary epoch b) (votesFit_expired hne _ _)
    (getProof_gatheredBoundary epoch b))

end Boundary

/-- At height 200000, the first of epoch 1: the staker of an epoch-0 stake gathers all the votes it
counts, and the vote check refuses the proof. -/
theorem gathered_firstOfEpoch :
    let base := lastOfEpoch Ledger.epoch 199999
    let blk := firstOfEpoch Ledger.epoch 199999
    let map := gatheredBoundary Ledger.epoch 199999
    blk.header.height = 200000 ∧ (∃ newState, ledger.applyBlock base blk = .ok newState) ∧
      ledger.AllVerify (ledger.headerHash blk.header) map ∧
      ledger.getProof base map = (.ok (some map) : Except (Fault ApplyError) _) ∧
      ledger.voteCheck (ledger.rawStakes base) blk map ≠ .ok () := by
  refine ⟨rfl, ⟨_, applyBlock_firstOfEpoch Ledger.epoch 199999⟩, ?_, ?_, ?_⟩
  · exact allVerify_gatheredBoundary Ledger.epoch 199999
  · exact getProof_gatheredBoundary Ledger.epoch 199999
  · have hne : Ledger.epoch 199999 ≠ Ledger.epoch (199999 + 1) := by decide
    exact voteCheck_firstOfEpoch hne

/-- **A gathered proof is accepted, exactly**: under an epoch function, all state transitions and all
inputs at base height `b` have their gathered proofs accepted if and only if the next height is in
the same epoch. -/
theorem gathered_accepted_iff (epoch : Nat → Nat) (b : Nat) :
    (∀ (Sealed Unsealed : Type) (M : Melstf Sealed Unsealed), M.EnumeratesStakes →
      M.epoch = epoch → M.GatheredPasses b) ↔ epoch b = epoch (b + 1) := by
  constructor
  · intro h
    by_contra hne
    exact not_gatheredPasses epoch b hne (h _ _ (ledgerWith epoch) ledger_enumerates rfl)
  · rintro hsame Sealed Unsealed M hM rfl baseState blk newState map hbase hblk - hverify hfit hproof
    have hepoch : M.epoch (M.header baseState).height = M.epoch blk.header.height := by
      rw [hbase, hblk]
      exact hsame
    apply (voteCheck_of_getProof hM hepoch hverify hproof).mpr
    rw [hblk]
    exact hfit

end Melstf

end Melnode
