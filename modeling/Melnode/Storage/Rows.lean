import Melnode.Storage.Tables

/-!
# Rows that a block adds and rows that are read

Membership lemmas for the tables: the rows up to a height, what `get_stakeset` and `highest_state`
read of them, and what writing a block adds. The rows up to a height determine the state at it
(`stateAt_upTo`), so what a call read stays what it is when blocks are put on top.
-/

namespace Melnode

open Lib

/-! ## Rows up to a height -/

namespace Tables

variable (db : Tables)

theorem history_upTo (h k : Nat) :
    (db.upTo h).history[k]? = if k ≤ h then db.history[k]? else none := by
  unfold upTo
  rw [Table.getElem?_keep_key]
  simp only [decide_eq_true_eq]

theorem consensusProofs_upTo (h k : Nat) :
    (db.upTo h).consensusProofs[k]? = if k ≤ h then db.consensusProofs[k]? else none := by
  unfold upTo
  rw [Table.getElem?_keep_key]
  simp only [decide_eq_true_eq]

theorem stakes_upTo (h : Nat) (t : TxHash) :
    (db.upTo h).stakes[t]? = db.stakes[t]?.filter fun row => decide (row.height ≤ h) := by
  unfold upTo
  rw [Table.getElem?_keep]

theorem block?_upTo {h k : Nat} (hk : k ≤ h) : (db.upTo h).block? k = db.block? k := by
  unfold block?
  rw [history_upTo, if_pos hk]

theorem upTo_upTo {h k : Nat} (hk : k ≤ h) : (db.upTo h).upTo k = db.upTo k := by
  apply Tables.ext
  · apply Std.ExtTreeMap.ext_getElem?
    intro j
    rw [history_upTo, history_upTo, history_upTo]
    by_cases hj : j ≤ k
    · rw [if_pos hj, if_pos hj, if_pos (Nat.le_trans hj hk)]
    · rw [if_neg hj, if_neg hj]
  · apply Std.ExtTreeMap.ext_getElem?
    intro j
    rw [consensusProofs_upTo, consensusProofs_upTo, consensusProofs_upTo]
    by_cases hj : j ≤ k
    · rw [if_pos hj, if_pos hj, if_pos (Nat.le_trans hj hk)]
    · rw [if_neg hj, if_neg hj]
  · apply Std.ExtTreeMap.ext_getElem?
    intro t
    rw [stakes_upTo, stakes_upTo, stakes_upTo, Option.filter_filter]
    congr 1
    funext row
    by_cases hrow : row.height ≤ k
    · simp [hrow, Nat.le_trans hrow hk]
    · simp [hrow]

/-- The smaller tables are the rows of the larger ones up to their own highest height. -/
structure IsPrefix (db db' : Tables) : Prop where
  le : db.highestHeight ≤ db'.highestHeight
  eq : db'.upTo db.highestHeight = db

/-- No row of `db` is changed or gone in `db'`. -/
structure Keeps (db db' : Tables) : Prop where
  history : ∀ {h : Nat} {row : HistoryRow}, db.history[h]? = some row → db'.history[h]? = some row
  proofs : ∀ {h : Nat} {proof : ConsensusProof},
    db.consensusProofs[h]? = some proof → db'.consensusProofs[h]? = some proof
  stakes : ∀ {t : TxHash} {row : StakeRow}, db.stakes[t]? = some row → db'.stakes[t]? = some row

variable {db} {db' db'' : Tables}

theorem IsPrefix.trans (h₁ : db.IsPrefix db') (h₂ : db'.IsPrefix db'') : db.IsPrefix db'' := by
  refine ⟨Nat.le_trans h₁.le h₂.le, ?_⟩
  rw [← upTo_upTo db'' h₁.le, h₂.eq]
  exact h₁.eq

theorem IsPrefix.keeps (h : db.IsPrefix db') : db.Keeps db' := by
  refine ⟨?_, ?_, ?_⟩
  · intro k row hrow
    rw [← h.eq, history_upTo] at hrow
    split at hrow
    · exact hrow
    · cases hrow
  · intro k proof hproof
    rw [← h.eq, consensusProofs_upTo] at hproof
    split at hproof
    · exact hproof
    · cases hproof
  · intro t row hrow
    rw [← h.eq, stakes_upTo] at hrow
    exact (Option.filter_eq_some_iff.mp hrow).1

theorem IsPrefix.block? (h : db.IsPrefix db') {k : Nat} {blk : Block}
    (hblk : db.block? k = some blk) : db'.block? k = some blk := by
  obtain ⟨row, hrow, rfl⟩ := Option.map_eq_some_iff.mp hblk
  exact Option.map_eq_some_iff.mpr ⟨row, h.keeps.history hrow, rfl⟩

theorem IsPrefix.block?_eq (h : db.IsPrefix db') {k : Nat} (hk : k ≤ db.highestHeight) :
    db'.block? k = db.block? k := by
  have hupto := block?_upTo db' hk
  rw [h.eq] at hupto
  exact hupto.symm

theorem IsPrefix.proof_eq (h : db.IsPrefix db') {k : Nat} (hk : k ≤ db.highestHeight) :
    db'.consensusProofs[k]? = db.consensusProofs[k]? := by
  have hupto := consensusProofs_upTo db' db.highestHeight k
  rw [h.eq, if_pos hk] at hupto
  exact hupto.symm

theorem highestHeight_eq (db : Tables) {H : Nat} (h : ∀ k, k ∈ db.history ↔ 1 ≤ k ∧ k ≤ H) :
    db.highestHeight = H := by
  have hkeys : ∀ k, k ∈ db.history.keys ↔ 1 ≤ k ∧ k ≤ H := by
    intro k
    rw [Std.ExtTreeMap.mem_keys, h]
  unfold highestHeight
  by_cases hH : H = 0
  · have hempty : db.history.keys = [] := by
      apply List.eq_nil_iff_forall_not_mem.mpr
      intro k hk
      have := (hkeys k).mp hk
      omega
    rw [hempty, hH]
    rfl
  · have hmax : db.history.keys.max? = some H := by
      rw [List.max?_eq_some_iff]
      refine ⟨(hkeys H).mpr ⟨Nat.pos_of_ne_zero hH, Nat.le_refl H⟩, ?_⟩
      intro k hk
      exact ((hkeys k).mp hk).2
    rw [hmax]
    rfl

end Tables

namespace Melstf

variable {Sealed Unsealed : Type} {M : Melstf Sealed Unsealed} {genesis : GenesisConfig}

/-! ## Reading back -/

section Reading

theorem getElem?_getStakeset (db : Tables) (h : Nat) (t : TxHash) :
    (M.getStakeset genesis db h)[t]? =
      (((db.stakes[t]?.filter fun row => decide (row.height ≤ h)).map StakeRow.stakeDoc).or
        genesis.stakes[t]?).filter fun doc => decide (M.epoch h < doc.ePostEnd) := by
  unfold getStakeset
  rw [StakeSet.getElem?_unlockOld, Table.getElem?_overlay, Table.getElem?_overlay]
  have hall : genesis.stakes[t]?.filter (fun _ => true) = genesis.stakes[t]? := by
    cases genesis.stakes[t]? <;> rfl
  simp [hall]

/-- The tables hold the same stake rows up to a height. -/
def SameRowsTo (db db' : Tables) (h : Nat) : Prop :=
  ∀ (t : TxHash) (row : StakeRow), row.height ≤ h →
    (db.stakes[t]? = some row ↔ db'.stakes[t]? = some row)

/-- The rebuilt stakes are told by the rows up to their height. -/
theorem getStakeset_congr {db db' : Tables} {h : Nat} (hsame : SameRowsTo db db' h) :
    M.getStakeset genesis db' h = M.getStakeset genesis db h := by
  apply Std.ExtTreeMap.ext_getElem?
  intro t
  have hrows : db'.stakes[t]?.filter (fun row => decide (row.height ≤ h)) =
      db.stakes[t]?.filter fun row => decide (row.height ≤ h) := by
    apply Option.ext
    intro row
    rw [Option.filter_eq_some_iff, Option.filter_eq_some_iff, decide_eq_true_eq]
    constructor
    · rintro ⟨hrow, hle⟩
      exact ⟨(hsame t row hle).mpr hrow, hle⟩
    · rintro ⟨hrow, hle⟩
      exact ⟨(hsame t row hle).mp hrow, hle⟩
  rw [getElem?_getStakeset, getElem?_getStakeset, hrows]

theorem getStakeset_upTo (db : Tables) {h k : Nat} (hk : k ≤ h) :
    M.getStakeset genesis (db.upTo h) k = M.getStakeset genesis db k := by
  apply getStakeset_congr
  intro t row hrow
  rw [Tables.stakes_upTo, Option.filter_eq_some_iff, decide_eq_true_eq]
  exact ⟨fun hin => ⟨hin, Nat.le_trans hrow hk⟩, And.left⟩

theorem getState_upTo (db : Tables) {h k : Nat} (hk : k ≤ h) :
    M.getState genesis (db.upTo h) k = M.getState genesis db k := by
  unfold getState
  rw [Tables.block?_upTo db hk, getStakeset_upTo db hk]

/-- The rows up to a height determine the state at it. -/
theorem stateAt_upTo (db : Tables) {h k : Nat} (hk : k ≤ h) :
    M.stateAt genesis (db.upTo h) k = M.stateAt genesis db k := by
  unfold stateAt
  rw [getState_upTo db hk]

theorem getStakeset_isPrefix {db db' : Tables} (h : db.IsPrefix db') {k : Nat}
    (hk : k ≤ db.highestHeight) : M.getStakeset genesis db' k = M.getStakeset genesis db k := by
  rw [← getStakeset_upTo db' hk, h.eq]

theorem getState_isPrefix {db db' : Tables} (h : db.IsPrefix db') {k : Nat}
    (hk : k ≤ db.highestHeight) : M.getState genesis db' k = M.getState genesis db k := by
  rw [← getState_upTo db' hk, h.eq]

theorem stateAt_isPrefix {db db' : Tables} (h : db.IsPrefix db') {k : Nat}
    (hk : k ≤ db.highestHeight) : M.stateAt genesis db' k = M.stateAt genesis db k := by
  rw [← stateAt_upTo db' hk, h.eq]

theorem stateAt_zero (db : Tables) : M.stateAt genesis db 0 = .ok (M.genesisState genesis) := rfl

theorem stateAt_ok {db : Tables} {h : Nat} {s : Sealed} (h0 : 0 < h)
    (hs : M.stateAt genesis db h = .ok s) :
    ∃ blk, db.block? h = some blk ∧
      M.stakesHash (M.getStakeset genesis db h) = blk.header.stakesHash ∧
      s = M.fromBlock blk (M.getStakeset genesis db h) := by
  unfold stateAt getState rebuildState at hs
  rw [if_pos h0] at hs
  cases hblk : db.block? h with
  | none => simp [hblk] at hs
  | some blk =>
    by_cases hhash : M.stakesHash (M.getStakeset genesis db h) = blk.header.stakesHash
    · simp only [hblk, hhash, if_true, Except.map, Except.ok.injEq] at hs
      exact ⟨blk, rfl, hhash, hs.symm⟩
    · simp [hblk, hhash, Except.map] at hs

theorem checkBlock_ok_iff {s s' : Sealed} {blk : Block} {cproof : ConsensusProof} :
    M.checkBlock s blk cproof = .ok s' ↔
      blk.header.height = (M.header s).height + 1 ∧
        M.voteCheck (M.rawStakes s) blk cproof = .ok () ∧ M.applyBlock s blk = .ok s' := by
  unfold checkBlock
  by_cases hh : blk.header.height = (M.header s).height + 1
  · rw [if_neg (not_not_intro hh)]
    simp only [hh, true_and]
    cases hv : M.voteCheck (M.rawStakes s) blk cproof with
    | error f => simp [bind, Except.bind]
    | ok u =>
      cases ha : M.applyBlock s blk with
      | error e => simp [bind, Except.bind]
      | ok s₁ => simp [bind, Except.bind]
  · rw [if_pos hh]
    simp [hh]

end Reading

/-! ## Writing a block -/

section Writing

/-- The stake rows a block inserts. -/
def blockStakes (M : Melstf Sealed Unsealed) (blk : Block) : List (TxHash × StakeRow) :=
  blk.transactions.filterMap (M.stakeRow blk.header)

theorem stakeRow_eq_some {hd : Header} {tx : Transaction} {t : TxHash} {row : StakeRow} :
    M.stakeRow hd tx = some (t, row) ↔
      tx.kind = .stake ∧ M.decodeStakeDoc tx.data = some row.stakeDoc ∧
        (500000 ≤ hd.height ∨ hd.network ≠ .mainnet) ∧ M.hashNosigs tx = t ∧
        row.height = hd.height := by
  obtain ⟨height, doc⟩ := row
  unfold stakeRow
  by_cases hkind : tx.kind = .stake
  · cases hdoc : M.decodeStakeDoc tx.data with
    | none => simp
    | some d =>
      by_cases hgate : 500000 ≤ hd.height ∨ hd.network ≠ .mainnet
      · simp only [hkind, hgate, if_true, Option.some.injEq, Prod.mk.injEq, StakeRow.mk.injEq,
          true_and]
        constructor
        · rintro ⟨rfl, rfl, rfl⟩
          exact ⟨rfl, rfl, rfl⟩
        · rintro ⟨rfl, rfl, rfl⟩
          exact ⟨rfl, rfl, rfl⟩
      · simp only [hkind, hgate, if_true, if_false, reduceCtorEq, false_and, and_false]
  · simp [hkind]

theorem height_of_mem_blockStakes {blk : Block} {t : TxHash} {row : StakeRow}
    (h : (t, row) ∈ M.blockStakes blk) : row.height = blk.header.height := by
  obtain ⟨tx, -, htx⟩ := List.mem_filterMap.mp h
  exact (stakeRow_eq_some.mp htx).2.2.2.2

variable {db db' : Tables} {blk : Block} {cproof : ConsensusProof}

theorem insertBlock_eq_some :
    M.insertBlock db blk cproof = some db' ↔
      blk.header.height ≤ maxSqlHeight ∧ db.history[blk.header.height]? = none ∧
        db.consensusProofs[blk.header.height]? = none ∧
        ∃ stakes, Table.insertAllNew db.stakes (M.blockStakes blk) = some stakes ∧
          db' = ⟨db.history.insert blk.header.height ⟨blk.header, blk⟩,
            db.consensusProofs.insert blk.header.height cproof, stakes⟩ := by
  unfold insertBlock
  by_cases hle : blk.header.height ≤ maxSqlHeight
  · rw [if_pos hle, Table.foldlM_insert_eq]
    simp only [Option.bind_eq_bind, Option.bind_eq_some_iff, hle, true_and]
    constructor
    · rintro ⟨history, hhist, proofs, hproofs, stakes, hstakes, hdb⟩
      obtain ⟨hfree, rfl⟩ := Table.insertNew_eq_some.mp hhist
      obtain ⟨hfree', rfl⟩ := Table.insertNew_eq_some.mp hproofs
      exact ⟨hfree, hfree', stakes, hstakes, (Option.some.inj hdb).symm⟩
    · rintro ⟨hfree, hfree', stakes, hstakes, rfl⟩
      exact ⟨_, Table.insertNew_eq_some.mpr ⟨hfree, rfl⟩, _,
        Table.insertNew_eq_some.mpr ⟨hfree', rfl⟩, stakes, hstakes, rfl⟩
  · rw [if_neg hle]
    simp [hle]

/-- The rows after a block is written: the old ones and the block's, under keys that were free. -/
structure Inserted (M : Melstf Sealed Unsealed) (db : Tables) (blk : Block)
    (cproof : ConsensusProof) (db' : Tables) : Prop where
  free : db.history[blk.header.height]? = none
  history : ∀ k, db'.history[k]? =
    if blk.header.height = k then some ⟨blk.header, blk⟩ else db.history[k]?
  proofs : ∀ k, db'.consensusProofs[k]? =
    if blk.header.height = k then some cproof else db.consensusProofs[k]?
  stakes : ∀ t row, db'.stakes[t]? = some row ↔
    db.stakes[t]? = some row ∨ (t, row) ∈ M.blockStakes blk
  newStakes : ∀ t row, (t, row) ∈ M.blockStakes blk → db.stakes[t]? = none
  nodup : ((M.blockStakes blk).map Prod.fst).Nodup

theorem insertBlock_inserted (h : M.insertBlock db blk cproof = some db') :
    M.Inserted db blk cproof db' := by
  obtain ⟨-, hfree, -, stakes, hstakes, rfl⟩ := insertBlock_eq_some.mp h
  obtain ⟨hnodup, hnew, hmem⟩ := Table.insertAllNew_spec hstakes
  refine ⟨hfree, ?_, ?_, fun t row => hmem t row, fun t row hrow => hnew _ hrow, hnodup⟩
  · intro k
    simp [Std.ExtTreeMap.getElem?_insert]
  · intro k
    simp [Std.ExtTreeMap.getElem?_insert]

/-- A block above everything stored leaves what is stored as it was. -/
theorem Inserted.upTo {h : Nat} (hins : M.Inserted db blk cproof db') (hdb : db.upTo h = db)
    (hlt : h < blk.header.height) : db'.upTo h = db := by
  rw [← hdb]
  apply Tables.ext
  · apply Std.ExtTreeMap.ext_getElem?
    intro k
    rw [Tables.history_upTo, Tables.history_upTo]
    by_cases hk : k ≤ h
    · rw [if_pos hk, if_pos hk, hins.history, if_neg]
      omega
    · rw [if_neg hk, if_neg hk]
  · apply Std.ExtTreeMap.ext_getElem?
    intro k
    rw [Tables.consensusProofs_upTo, Tables.consensusProofs_upTo]
    by_cases hk : k ≤ h
    · rw [if_pos hk, if_pos hk, hins.proofs, if_neg]
      omega
    · rw [if_neg hk, if_neg hk]
  · apply Std.ExtTreeMap.ext_getElem?
    intro t
    rw [Tables.stakes_upTo, Tables.stakes_upTo]
    ext row
    simp only [Option.filter_eq_some_iff, decide_eq_true_eq]
    constructor
    · rintro ⟨hrow, hle⟩
      rcases (hins.stakes t row).mp hrow with hold | hnew
      · exact ⟨hold, hle⟩
      · have := height_of_mem_blockStakes hnew
        omega
    · rintro ⟨hrow, hle⟩
      exact ⟨(hins.stakes t row).mpr (Or.inl hrow), hle⟩

end Writing

end Melstf

end Melnode
