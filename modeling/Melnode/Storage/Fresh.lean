import Melnode.Storage.Solo

/-!
# The next block finds its keys free

`apply_block` inserts under three primary keys: the height in `history` and in `consensus_proofs`,
and the hash of each `Stake` transaction in `stakes`. The heights `1..H` are taken, so `H + 1` is
free; a row of `stakes` is a genesis stake or comes from a transaction of a stored block, so a hash
is free as long as no two transactions of the chain share one (`DistinctHashes`).
-/

namespace Melnode

open Lib

/-- The stored blocks, the lowest first. -/
def Tables.blocks (db : Tables) : List Block := db.history.toList.map fun kv => kv.2.block

theorem Tables.mem_blocks {db : Tables} {h : Nat} {blk : Block} (hblk : db.block? h = some blk) :
    blk ∈ db.blocks := by
  obtain ⟨row, hrow, rfl⟩ := Melstf.block?_eq_some.mp hblk
  refine List.mem_map.mpr ⟨(h, row), ?_, rfl⟩
  exact Std.ExtTreeMap.mem_toList_iff_getElem?_eq_some.mpr hrow

namespace Melstf

variable {Sealed Unsealed : Type} {M : Melstf Sealed Unsealed} {genesis : GenesisConfig}

/-- What `melstf` promises of the blocks of a chain: their transactions have different hashes, and
none has the hash of a genesis stake. -/
structure DistinctHashes (M : Melstf Sealed Unsealed) (genesis : GenesisConfig)
    (blks : List Block) : Prop where
  nodup : ((blks.flatMap Block.transactions).map M.hashNosigs).Nodup
  not_genesis : ∀ tx ∈ blks.flatMap Block.transactions, genesis.stakes[M.hashNosigs tx]? = none

/-! ## The keys of a block -/

section Keys

variable {db : Tables} {blk : Block} {cproof : ConsensusProof}

theorem mem_blockStakes {t : TxHash} {row : StakeRow} (h : (t, row) ∈ M.blockStakes blk) :
    ∃ tx ∈ blk.transactions, M.hashNosigs tx = t := by
  obtain ⟨tx, htx, hrow⟩ := List.mem_filterMap.mp h
  obtain ⟨-, -, -, hhash, -⟩ := stakeRow_eq_some.mp hrow
  exact ⟨tx, htx, hhash⟩

/-- The stake rows of a block are keyed by some of its transactions' hashes, in their order. -/
theorem blockStakes_sublist (blk : Block) :
    ((M.blockStakes blk).map Prod.fst).Sublist (blk.transactions.map M.hashNosigs) := by
  have hkey : ∀ (tx : Transaction) (t : TxHash) (row : StakeRow),
      M.stakeRow blk.header tx = some (t, row) → ∃ a : Unit, some (M.hashNosigs tx, ()) = some (t, a) := by
    intro tx t row hrow
    obtain ⟨-, -, -, hhash, -⟩ := stakeRow_eq_some.mp hrow
    exact ⟨(), by rw [hhash]⟩
  have hmap : ((blk.transactions.filterMap fun tx => some (M.hashNosigs tx, ())).map Prod.fst) =
      blk.transactions.map M.hashNosigs := by
    rw [List.filterMap_eq_map', List.map_map]
    rfl
  rw [← hmap]
  exact Table.keys_sublist hkey blk.transactions

/-- The hash of a block's transaction is no key of `stakes` before the block. -/
theorem DistinctHashes.stakes_free (hwf : M.WellFormed genesis db)
    (hfresh : M.DistinctHashes genesis (db.blocks ++ [blk])) {tx : Transaction}
    (htx : tx ∈ blk.transactions) : db.stakes[M.hashNosigs tx]? = none := by
  have hmem : tx ∈ (db.blocks ++ [blk]).flatMap Block.transactions := by simp [htx]
  cases hrow : db.stakes[M.hashNosigs tx]? with
  | none => rfl
  | some row =>
    obtain ⟨-, hgenesis⟩ | ⟨b, hb, hstake⟩ := (hwf.stake_row _ row).mp hrow
    · rw [hfresh.not_genesis tx hmem] at hgenesis
      cases hgenesis
    · -- a stored block would have a transaction of the same hash
      obtain ⟨tx', htx', hhash⟩ := mem_blockStakes hstake
      have hnodup := hfresh.nodup
      rw [List.flatMap_append, List.map_append, List.nodup_append] at hnodup
      have hold : M.hashNosigs tx' ∈ (db.blocks.flatMap Block.transactions).map M.hashNosigs :=
        List.mem_map_of_mem (List.mem_flatMap.mpr ⟨b, Tables.mem_blocks hb, htx'⟩)
      have hnew : M.hashNosigs tx ∈ ([blk].flatMap Block.transactions).map M.hashNosigs :=
        List.mem_map_of_mem (by simpa using htx)
      exact absurd hhash (hnodup.2.2 _ hold _ hnew)

/-- **No insert meets a key that is there.** -/
theorem WellFormed.insertBlock_isSome (hwf : M.WellFormed genesis db) (cproof : ConsensusProof)
    (hfresh : M.DistinctHashes genesis (db.blocks ++ [blk]))
    (hheight : blk.header.height = db.highestHeight + 1) (hfit : blk.header.height ≤ maxSqlHeight) :
    ∃ db', M.insertBlock db blk cproof = some db' := by
  have hhistory : blk.header.height ∉ db.history := by
    rw [hwf.height_mem]
    omega
  have hproof : blk.header.height ∉ db.consensusProofs := by
    rwa [hwf.proof_mem]
  have hkeys : ((M.blockStakes blk).map Prod.fst).Nodup := by
    refine (blockStakes_sublist blk).nodup ?_
    refine hfresh.nodup.sublist ?_
    rw [List.flatMap_append, List.map_append]
    simp
  have hfree : ∀ kv ∈ M.blockStakes blk, db.stakes[kv.1]? = none := by
    rintro ⟨t, row⟩ hkv
    obtain ⟨tx, htx, rfl⟩ := mem_blockStakes hkv
    exact hfresh.stakes_free hwf htx
  obtain ⟨stakes, hstakes⟩ := Table.insertAllNew_isSome hkeys hfree
  exact ⟨_, insertBlock_eq_some.mpr
    ⟨hfit, by simpa using hhistory, by simpa using hproof, stakes, hstakes, rfl⟩⟩

end Keys

/-! ## In a run -/

/-- **A valid next block is never refused.** In every state of a storage that any interleaving of
calls, failures, dropped futures and restarts leads to: where the block is the next one, its proof
passes the vote check and the highest state accepts it, the SQL transaction goes through. So a call
whose closure runs, its future dropped or not, commits, and a call made while the lock is free comes
to its commit. -/
theorem storage_takes_next (hB : M.BuildsStates)
    {c : Procs.Config Nat (Shared Unsealed) (Call Sealed)}
    (hc : (M.storage genesis).lts.Reachable c) {s s' : Sealed} {blk : Block}
    {cproof : ConsensusProof} (hs : M.highestState genesis c.shared.db = .ok s)
    (hheight : blk.header.height = c.shared.db.highestHeight + 1)
    (hfit : blk.header.height ≤ maxSqlHeight)
    (hvotes : M.voteCheck (M.rawStakes s) blk cproof = .ok ())
    (hstate : M.applyBlock s blk = .ok s')
    (hfresh : M.DistinctHashes genesis (c.shared.db.blocks ++ [blk])) :
    ∃ db, M.insertBlock c.shared.db blk cproof = some db ∧
      (∀ i, c.shared.crashed = false →
        c.procs i = .made blk cproof .running ∨ c.procs i = .made blk cproof .orphan →
          ∃ c', (M.storage genesis).exec c (.inl (i, .commit)) = some c' ∧ c'.shared.db = db) ∧
      ∀ i, c.shared.crashed = false → c.procs i = .idle → c.shared.lock = none →
        ∃ sh, (M.storage genesis).lts.Reaches c
          ⟨sh, Function.update c.procs i (.made blk cproof (.rebasing .start))⟩ ∧ sh.db = db := by
  have hwf := (storage_invariant hB hc).1
  obtain ⟨db, hins⟩ := hwf.insertBlock_isSome cproof hfresh hheight hfit
  refine ⟨db, hins, ?_, ?_⟩
  · intro i hcrash hcall
    obtain ⟨call', hcommit⟩ : ∃ call', M.callStep genesis i .commit c.shared (c.procs i) =
        some ({ c.shared with db := db, committer := c.shared.committer.insert blk.header.height i },
          call') := by
      obtain hrun | horphan := hcall
      · exact ⟨.made blk cproof (.rebasing .start), by simp [callStep, hcrash, hrun, hins]⟩
      · exact ⟨.made blk cproof .dropped, by simp [callStep, hcrash, horphan, hins]⟩
    exact ⟨_, Procs.exec_proc.mpr ⟨_, _, hcommit, rfl⟩, rfl⟩
  · intro i hcrash hidle hlock
    have hcheck : M.checkBlock s blk cproof = .ok s' := by
      refine checkBlock_ok_iff.mpr ⟨?_, hvotes, hstate⟩
      rw [hheight, hwf.stateAt_height hB hs]
    obtain ⟨fetched, hreach⟩ := reaches_commit c.procs hidle hlock hcrash hs hcheck hins
    exact ⟨_, hreach, rfl⟩

/-- The second block of the three-staker network, with a `Stake` transaction after one in the first. -/
def secondStake (first second : StakeDoc) : Block :=
  match ledger.highestState Ledger.threeStakers
      (Ledger.committed (Ledger.firstStake first) [1, 2, 3]).shared.db with
  | .ok s => Ledger.blockOn s [Ledger.staking second]
  | .error _ => Ledger.firstStake first

/-- A block of the three stakers with a stake of its own, after a block with another. -/
theorem storage_takes_next_secondStake :
    let c := Ledger.committed (Ledger.firstStake ⟨4, 1, 5, 7⟩) [1, 2, 3]
    let blk := secondStake ⟨4, 1, 5, 7⟩ ⟨5, 1, 5, 7⟩
    let cproof := Ledger.proofBy [1, 2, 3] blk
    ∃ db, ledger.insertBlock c.shared.db blk cproof = some db ∧
      (∀ i, c.shared.crashed = false →
        c.procs i = .made blk cproof .running ∨ c.procs i = .made blk cproof .orphan →
          ∃ c', (ledger.storage Ledger.threeStakers).exec c (.inl (i, .commit)) = some c' ∧
            c'.shared.db = db) ∧
      ∀ i, c.shared.crashed = false → c.procs i = .idle → c.shared.lock = none →
        ∃ sh, (ledger.storage Ledger.threeStakers).lts.Reaches c
          ⟨sh, Function.update c.procs i (.made blk cproof (.rebasing .start))⟩ ∧ sh.db = db := by
  intro c blk cproof
  have hchecks : (ledger.highestState Ledger.threeStakers c.shared.db).toOption.any (fun s =>
      (ledger.checkBlock s blk cproof).isOk) = true := by
    decide +kernel
  obtain ⟨s, s', hs, hcheck⟩ : ∃ s s', ledger.highestState Ledger.threeStakers c.shared.db = .ok s ∧
      ledger.checkBlock s blk cproof = .ok s' := by
    revert hchecks
    cases ledger.highestState Ledger.threeStakers c.shared.db with
    | error site => exact fun h => absurd h Bool.false_ne_true
    | ok s =>
      intro h
      cases hcheck : ledger.checkBlock s blk cproof with
      | error f => exact absurd ((congrArg Except.isOk hcheck).symm.trans h) Bool.false_ne_true
      | ok s' => exact ⟨s, s', rfl, hcheck⟩
  obtain ⟨-, hvotes, hstate⟩ := checkBlock_ok_iff.mp hcheck
  exact storage_takes_next ledger_builds (storageAfter_reachable _ _ (by decide +kernel)) hs
    (by decide +kernel) (by decide +kernel) hvotes hstate
    ⟨by decide +kernel, by decide +kernel⟩

end Melstf

end Melnode
