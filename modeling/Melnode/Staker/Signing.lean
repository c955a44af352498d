import Melnode.Staker.Invariant

/-!
# Signatures by height

The staker keeps no record of the heights it has signed at: a round signs its decision, and what
stops it from signing another block of that height is that the next base state is at that height.
`signedHashes_card_le` bounds the hashes signed at a height by the rounds that ended with a failed
`apply_block` before any block of the height was stored.
-/

namespace Melnode

open Lib

variable {Sealed Unsealed : Type}

/-- The number of signatures made at a height. -/
def signatures (n : Node Sealed Unsealed) (h : Nat) : Nat := n.signed.countP fun e => e.1 == h

/-- The header hashes signed at a height. -/
def signedHashes (n : Node Sealed Unsealed) (h : Nat) : Finset HashVal :=
  ((n.signed.filter fun e => e.1 == h).map Prod.snd).toFinset

/-- Above a height, every signature belongs to a round that failed. -/
def SettledAbove (n : Node Sealed Unsealed) (b : Nat) : Prop :=
  ∀ h, b < h → signatures n h ≤ n.failed.count h

theorem SettledAbove.mono {n : Node Sealed Unsealed} {b b' : Nat} (h : SettledAbove n b)
    (hle : b ≤ b') : SettledAbove n b' :=
  fun k hk => h k (Nat.lt_of_le_of_lt hle hk)

theorem card_signedHashes_le (n : Node Sealed Unsealed) (h : Nat) :
    (signedHashes n h).card ≤ signatures n h := by
  have hcard := List.toFinset_card_le ((n.signed.filter fun e => e.1 == h).map Prod.snd)
  rw [List.length_map] at hcard
  unfold signatures
  rw [List.countP_eq_length_filter]
  exact hcard

namespace Melstf

variable {M : Melstf Sealed Unsealed} {genesis : GenesisConfig} {cfg : StakerConfig}
  {n n' : Node Sealed Unsealed}

/-- From which height on every signature is settled, by where the round is. -/
def settledHeight (M : Melstf Sealed Unsealed) (highest : Nat) : Round Sealed → Nat
  | .listening => highest
  | .reading .start => highest
  | .reading (.height h) => h
  | .reading (.block h _) => h
  | .reading (.done s) => (M.header s).height
  | .waiting baseState => (M.header baseState).height
  | .mismatch baseState => (M.header baseState).height
  | .deciding baseState _ => (M.header baseState).height
  | .gathering baseState _ => (M.header baseState).height + 1
  | .applying baseState _ _ => (M.header baseState).height + 1

/-- Every height has at most one signature more than failed rounds, and none more above what the
round has seen stored or has signed itself. -/
structure Settled (M : Melstf Sealed Unsealed) (n : Node Sealed Unsealed) : Prop where
  le : ∀ h, signatures n h ≤ n.failed.count h + 1
  above : SettledAbove n (M.settledHeight n.storage.shared.db.highestHeight n.round)

theorem settledHeight_mono {b b' : Nat} (h : b ≤ b') (round : Round Sealed) :
    M.settledHeight b round ≤ M.settledHeight b' round := by
  cases round with
  | listening => exact h
  | reading r =>
    cases r with
    | start => exact h
    | _ => exact Nat.le_refl _
  | _ => exact Nat.le_refl _

/-- Only the signatures, the failures, the round and the highest height matter. -/
theorem Settled.of_same (h : M.Settled n) (hsigned : n'.signed = n.signed)
    (hfailed : n'.failed = n.failed)
    (hheight : M.settledHeight n.storage.shared.db.highestHeight n.round ≤
      M.settledHeight n'.storage.shared.db.highestHeight n'.round) : M.Settled n' := by
  have hsame : ∀ k, signatures n' k = signatures n k := by
    intro k
    unfold signatures
    rw [hsigned]
  refine ⟨fun k => ?_, fun k hk => ?_⟩
  · rw [hsame, hfailed]
    exact h.le k
  · rw [hsame, hfailed]
    exact h.above k (Nat.lt_of_le_of_lt hheight hk)

section Heights

variable (hB : M.BuildsStates) (hok : M.NodeOk genesis n)
include hB hok

/-- A base state is not above the highest height. -/
theorem base_le {baseState : Sealed}
    (h : M.ReadingOk genesis n.storage.shared.db (.done baseState)) :
    (M.header baseState).height ≤ n.storage.shared.db.highestHeight := by
  obtain ⟨k, hk, hs⟩ := h
  rw [(hok.shared.chain.wellFormed hB).stateAt_height hB hs]
  exact hk

theorem le_of_block? {h : Nat} {blk : Block} (hblk : n.storage.shared.db.block? h = some blk) :
    h ≤ n.storage.shared.db.highestHeight :=
  ((hok.shared.chain.wellFormed hB).block_le hblk).2

/-- A read of the highest state does not lower what is settled. -/
theorem settledHeight_read {r r' : Reading Sealed} {sh : Shared Unsealed}
    (hround : n.round = .reading r) (hr : M.ReadStep genesis n.storage.shared r sh r') :
    M.settledHeight n.storage.shared.db.highestHeight (.reading r) ≤
      M.settledHeight sh.db.highestHeight (.reading r') := by
  have hreading := hok.round
  rw [hround] at hreading
  cases hr with
  | height => exact Nat.le_refl _
  | genesis =>
    show 0 ≤ _
    exact Nat.zero_le _
  | cached => exact Nat.le_refl _
  | fetched => exact Nat.le_refl _
  | missing => exact Nat.le_refl _
  | @rebuilt h blk s hs =>
    obtain ⟨-, -, hblk⟩ := hreading
    have hheight := (hok.shared.chain.wellFormed hB).block_height hblk
    have hheader : M.header s = blk.header := by
      unfold rebuildState at hs
      split at hs
      · cases hs
        exact hB.header_fromBlock _ _
      · cases hs
    show h ≤ (M.header s).height
    rw [hheader, hheight]
  | mismatch => exact Nat.le_refl _

omit hB hok in
/-- The decision of a gathering or applying round is at the next height. -/
theorem decision_height (hC : M.ChecksHeader) {baseState : Sealed} {decision : Block}
    (hverify : M.verifyProposal baseState decision = true) :
    decision.header.height = (M.header baseState).height + 1 := by
  obtain ⟨s, hs⟩ := verifyProposal_iff.mp hverify
  exact hC.height_eq hs

/-- A call that returned `Ok` left its height stored. -/
theorem le_of_returned {i : Nat} {blk : Block} {cproof : ConsensusProof}
    (hcall : n.storage.procs i = .made blk cproof (.returned (.ok ()))) :
    blk.header.height ≤ n.storage.shared.db.highestHeight := by
  have hi := hok.calls i
  rw [hcall] at hi
  have hmem : blk.header.height ∈ n.storage.shared.db.history := hok.shared.committed hi
  exact (((hok.shared.chain.wellFormed hB).height_mem _).mp hmem).2

/-- `skip_round` sees its height stored. -/
theorem le_of_getState {h : Nat} {s : Sealed}
    (hs : M.getState genesis n.storage.shared.db h = .ok (some s)) :
    h ≤ n.storage.shared.db.highestHeight := by
  unfold getState at hs
  split at hs
  · cases hs
  · next hblk => exact le_of_block? hB hok hblk

end Heights

theorem signatures_cons {m : Node Sealed Unsealed} {h : Nat} {hash : HashVal}
    (hsigned : m.signed = (h, hash) :: n.signed) (k : Nat) :
    signatures m k = signatures n k + if h = k then 1 else 0 := by
  unfold signatures
  rw [hsigned, List.countP_cons]
  simp only [beq_iff_eq]

theorem OwnCall.block_eq (h : OwnCall n) {baseState : Sealed} {decision blk : Block}
    {cproof : ConsensusProof} {phase : Phase Sealed} {i : Nat}
    (hround : n.round = .applying baseState decision i)
    (hcall : n.storage.procs i = .made blk cproof phase) : blk = decision := by
  obtain ⟨cproof', phase', hown⟩ := h _ _ _ hround
  rw [hcall] at hown
  cases hown
  rfl

/-- What a round that is raced by `skip_round` has settled, once its height is stored. -/
theorem settledHeight_racing {round : Round Sealed} {baseState : Sealed} {call : Option Nat}
    {highest : Nat} (hracing : round.racing = some (baseState, call))
    (hle : M.nextHeight baseState ≤ highest) : M.settledHeight highest round ≤ highest := by
  unfold nextHeight at hle
  cases round with
  | deciding base proposal =>
    cases hracing
    show (M.header baseState).height ≤ highest
    omega
  | gathering base decision =>
    cases hracing
    exact hle
  | applying base decision i =>
    cases hracing
    exact hle
  | _ => cases hracing

/-- **One step of the staker** keeps the signatures settled. -/
theorem StakerStep.settled (hB : M.BuildsStates) (hC : M.ChecksHeader) (hok : M.NodeOk genesis n)
    {e : StakerEvent} (hstep : M.StakerStep genesis cfg n e n')
    (hG : n.storage.shared.db.IsPrefix n'.storage.shared.db) (hset : M.Settled n) :
    M.Settled n' := by
  have hround := hok.round
  cases hstep with
  | listen ok heq =>
    refine hset.of_same rfl rfl ?_
    rw [heq]
    cases ok <;> exact Nat.le_refl _
  | read _ heq hr =>
    refine hset.of_same rfl rfl ?_
    rw [heq]
    exact settledHeight_read hB hok heq hr
  | wait heq =>
    refine hset.of_same rfl rfl ?_
    rw [heq]
    exact Nat.le_refl _
  | mismatch heq _ =>
    refine hset.of_same rfl rfl ?_
    rw [heq]
    exact Nat.le_refl _
  | propose heq _ =>
    refine hset.of_same rfl rfl ?_
    rw [heq]
    exact Nat.le_refl _
  | rebase heq _ =>
    rw [heq] at hround
    refine hset.of_same rfl rfl ?_
    rw [heq]
    exact Nat.le_trans (base_le hB hok hround) hG.le
  | @decide base proposal decision heq hverify =>
    have hheight := decision_height hC hverify
    have habove := hset.above
    rw [heq] at habove
    have hcount := signatures_cons (n := n) (m := { n with
      round := .gathering base decision
      sigGather := n.sigGather.insert decision.header.height
        ((∅ : ConsensusProof).insert cfg.publicKey (cfg.sign (M.headerHash decision.header)))
      signed := (decision.header.height, M.headerHash decision.header) :: n.signed }) rfl
    refine ⟨fun k => ?_, fun k hk => ?_⟩
    · rw [hcount]
      by_cases hd : decision.header.height = k
      · have hold := habove k (show (M.header base).height < k by omega)
        rw [if_pos hd]
        exact Nat.succ_le_succ hold
      · rw [if_neg hd]
        exact hset.le k
    · have hk' : (M.header base).height + 1 < k := hk
      rw [hcount, if_neg (by omega)]
      exact habove k (show (M.header base).height < k by omega)
  | merge _ heq =>
    refine hset.of_same rfl rfl ?_
    exact Nat.le_refl _
  | submit i heq _ _ =>
    refine hset.of_same rfl rfl ?_
    rw [heq]
    exact Nat.le_refl _
  | finishOk heq hcall =>
    rw [heq] at hround
    have hstored := le_of_returned hB hok hcall
    rw [hok.own.block_eq heq hcall, decision_height hC hround.2] at hstored
    refine hset.of_same rfl rfl ?_
    rw [heq]
    exact hstored
  | @finishErr base decision blk cproof i e heq hcall =>
    rw [heq] at hround
    have hheight := decision_height hC hround.2
    have habove := hset.above
    rw [heq] at habove
    cases hblk : n.storage.shared.db.block? decision.header.height with
    | some blk' =>
      refine hset.of_same rfl rfl ?_
      rw [heq]
      show (M.header base).height + 1 ≤ n.storage.shared.db.highestHeight
      rw [← hheight]
      exact le_of_block? hB hok hblk
    | none =>
      have hbase := base_le hB hok hround.1
      refine ⟨fun k => ?_, fun k hk => ?_⟩
      · exact Nat.le_trans (hset.le k) (Nat.succ_le_succ List.count_le_count_cons)
      · have hk' : n.storage.shared.db.highestHeight < k := hk
        show signatures n k ≤ (decision.header.height :: n.failed).count k
        by_cases hd : decision.header.height = k
        · subst hd
          rw [List.count_cons_self]
          exact hset.le _
        · rw [List.count_cons_of_ne hd]
          exact habove k (show (M.header base).height + 1 < k by omega)
  | skip hracing hs =>
    exact hset.of_same rfl rfl (settledHeight_racing hracing (le_of_getState hB hok hs))
  | skipCall hracing hs _ =>
    exact hset.of_same rfl rfl
      (Nat.le_trans (settledHeight_racing hracing (le_of_getState hB hok hs)) hG.le)
  | crash e => exact hset.of_same rfl rfl (Nat.le_refl _)

/-- Signatures stay settled in every run. -/
theorem settled_reachable (hB : M.BuildsStates) (hC : M.ChecksHeader)
    (hn : (M.node genesis cfg).Reachable n) : M.Settled n := by
  refine hn.invariant_of_reachable (I := M.Settled) ?_ ?_
  · intro t ht
    have hnone : ∀ k, signatures t k = 0 := by
      intro k
      unfold signatures
      rw [ht.signed]
      rfl
    exact ⟨fun k => by simp [hnone], fun k _ => by simp [hnone]⟩
  · intro t e t' ht hset hstep
    have hok := node_reachable hB ht
    have hG := nodeStep_isPrefix hB hok hstep
    cases e with
    | staker e => exact (stakerStep_cases hstep).2.settled hB hC hok hG hset
    | storage label =>
      obtain ⟨-, storage, -, rfl⟩ := nodeStep_storage_eq hstep
      exact hset.of_same rfl rfl (settledHeight_mono hG.le _)

/-- **Signatures of a height.** In every run, the header hashes the staker has signed for a height
are at most one more than its rounds for that height that ended with a failed `apply_block` and no
block of that height stored. -/
theorem signedHashes_card_le (hB : M.BuildsStates) (hC : M.ChecksHeader)
    (hn : (M.node genesis cfg).Reachable n) (h : Nat) :
    (signedHashes n h).card ≤ n.failed.count h + 1 :=
  Nat.le_trans (card_signedHashes_le n h) ((settled_reachable hB hC hn).le h)

end Melstf

/-! ## A round whose commit fails -/

namespace Ledger

/-- The call passes its checks and the database fails. -/
def failedCall (call : Nat) : List (NodeEvent Ledger.Sealed) :=
  (Melstf.ofCall call [.acquire, .read false, .read false, .check, .start, .fail]).map .storage

/-- The first commit fails, and the next round decides another block. -/
def redecided : List (NodeEvent Ledger.Sealed) :=
  [.staker (.listen true)] ++ roundOn (firstBlock 1) 0 ++ failedCall 0 ++ [.staker .finish] ++
    roundOn (firstBlock 2) 1

end Ledger

namespace Melstf

theorem signedHashes_card_le_redecided :
    (signedHashes (Ledger.nodeAfter Ledger.redecided) 1).card ≤
      (Ledger.nodeAfter Ledger.redecided).failed.count 1 + 1 :=
  signedHashes_card_le ledger_builds ledger_checks
    ⟨_, Ledger.nodeStart_opened, Ledger.nodeAfter_reaches (by decide +kernel)⟩ 1

/-- Two header hashes of height 1 are signed in one run of one process. -/
theorem signedHashes_redecided :
    (ledger.node Ledger.threeStakers Ledger.staker).Reachable (Ledger.nodeAfter Ledger.redecided) ∧
      signedHashes (Ledger.nodeAfter Ledger.redecided) 1 =
        {ledger.headerHash (Ledger.firstBlock 1).header,
          ledger.headerHash (Ledger.firstBlock 2).header} ∧
      (signedHashes (Ledger.nodeAfter Ledger.redecided) 1).card = 2 :=
  ⟨⟨_, Ledger.nodeStart_opened, Ledger.nodeAfter_reaches (by decide +kernel)⟩, by decide +kernel,
    by decide +kernel⟩

end Melstf

end Melnode
