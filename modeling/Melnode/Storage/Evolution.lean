import Melnode.Storage.Stakes

/-!
# Stakes height by height

`get_stakeset` puts all rows up to a height over the genesis stakes, which are rows as well, and
unlocks once, in the epoch of that height. `evolvedStakes` goes through the heights instead: it
unlocks at each and then adds its rows. On a table whose rows are alive when they are added both
give the same set (`getStakeset_eq_evolved`), and no row of a larger height counts.
-/

namespace Melnode

open Lib

namespace Melstf

variable {Sealed Unsealed : Type} {M : Melstf Sealed Unsealed} {genesis : GenesisConfig}

/-- Adds the rows of a height. -/
def addRows (db : Tables) (h : Nat) (stakes : StakeSet) : StakeSet :=
  Table.overlay db.stakes (fun row => decide (row.height = h)) StakeRow.stakeDoc stakes

/-- The stakes after heights `1..h`: at each, the expired ones go and then its rows come. -/
def evolvedStakes (M : Melstf Sealed Unsealed) (genesis : GenesisConfig) (db : Tables) :
    Nat → StakeSet
  | 0 => genesis.stakes
  | h + 1 => addRows db (h + 1) ((evolvedStakes M genesis db h).unlockOld (M.epoch (h + 1)))

/-- A `stakes` table: the genesis stakes at height 0, and rows that end after they are added. -/
structure StakeTable (M : Melstf Sealed Unsealed) (genesis : GenesisConfig) (db : Tables) : Prop where
  genesisRows : GenesisRows genesis db
  alive : ∀ (t : TxHash) (row : StakeRow), db.stakes[t]? = some row → row.height ≠ 0 →
    M.epoch row.height < row.stakeDoc.ePostEnd

section Evolved

variable {db db' : Tables} {h : Nat} {t : TxHash} {row : StakeRow}

theorem getElem?_addRows_of_row {stakes : StakeSet} (hrow : db.stakes[t]? = some row)
    (hheight : row.height = h) : (addRows db h stakes)[t]? = some row.stakeDoc := by
  unfold addRows
  rw [Table.getElem?_overlay, hrow]
  simp [hheight]

theorem getElem?_addRows_of_not_row {stakes : StakeSet}
    (hnot : ∀ row, db.stakes[t]? = some row → row.height ≠ h) :
    (addRows db h stakes)[t]? = stakes[t]? := by
  unfold addRows
  rw [Table.getElem?_overlay]
  cases hrow : db.stakes[t]? with
  | none => rfl
  | some row =>
    simp only [Option.filter_some, decide_eq_true_eq, if_neg (hnot row hrow)]
    rfl

namespace StakeTable

variable (htable : M.StakeTable genesis db)
include htable

/-- One height: if expiry in its epoch leaves the documents so far, adding its rows to what is left
gives the documents up to it that are alive. -/
theorem getElem?_evolved_succ
    (ih : ((M.evolvedStakes genesis db h).unlockOld (M.epoch (h + 1)))[t]? =
      (docUpTo db h t).filter fun doc => decide (M.epoch (h + 1) < doc.ePostEnd)) :
    (M.evolvedStakes genesis db (h + 1))[t]? =
      (docUpTo db (h + 1) t).filter fun doc => decide (M.epoch (h + 1) < doc.ePostEnd) := by
  unfold evolvedStakes
  by_cases hnot : ∀ row, db.stakes[t]? = some row → row.height ≠ h + 1
  · rw [getElem?_addRows_of_not_row hnot, docUpTo_succ_of_not_row hnot, ih]
  · push Not at hnot
    obtain ⟨row, hrow, hheight⟩ := hnot
    -- a row of this height ends after it
    have hlater : M.epoch (h + 1) < row.stakeDoc.ePostEnd := by
      rw [← hheight]
      apply htable.alive t row hrow
      omega
    rw [getElem?_addRows_of_row hrow hheight, docUpTo_of_row hrow, if_pos (Nat.le_of_eq hheight)]
    rw [Option.filter_some, if_pos (decide_eq_true hlater)]

/-- What is left of the evolved stakes in any later epoch. -/
theorem getElem?_evolved_unlockOld (hmono : Monotone M.epoch) : ∀ {h epoch : Nat}, M.epoch h ≤ epoch →
    ((M.evolvedStakes genesis db h).unlockOld epoch)[t]? =
      (docUpTo db h t).filter fun doc => decide (epoch < doc.ePostEnd) := by
  intro h
  induction h with
  | zero =>
    intro epoch _
    rw [StakeSet.getElem?_unlockOld, docUpTo_zero htable.genesisRows]
    rfl
  | succ h ih =>
    intro epoch hle
    have hstep := htable.getElem?_evolved_succ (ih (hmono (Nat.le_succ h)))
    rw [StakeSet.getElem?_unlockOld, hstep, filter_later hle]

end StakeTable

/-- Tables in step are such a table when every row they hold was alive at its height. -/
theorem WellFormed.stakeTable (hwf : M.WellFormed genesis db)
    (halive : ∀ kv ∈ db.stakes.toList, kv.2.height = 0 ∨
      M.epoch kv.2.height < kv.2.stakeDoc.ePostEnd) : M.StakeTable genesis db := by
  refine ⟨hwf.genesisRows, ?_⟩
  intro t row hrow hne
  have hmem := Std.ExtTreeMap.mem_toList_iff_getElem?_eq_some.mpr hrow
  exact (halive (t, row) hmem).resolve_left hne

end Evolved

/-- **At once, or height by height**: the stakes that `get_stakeset` rebuilds for a height are those
evolved through the heights up to it, and rows of larger heights do not change them. -/
theorem getStakeset_eq_evolved (hmono : Monotone M.epoch) {db : Tables}
    (htable : M.StakeTable genesis db) {h : Nat} (h1 : 1 ≤ h) :
    M.getStakeset genesis db h = M.evolvedStakes genesis db h ∧
      ∀ db', SameRowsTo db db' h → M.getStakeset genesis db' h = M.getStakeset genesis db h := by
  obtain ⟨h, rfl⟩ := Nat.exists_eq_add_of_le' h1
  refine ⟨?_, fun db' hsame => getStakeset_congr hsame⟩
  apply Std.ExtTreeMap.ext_getElem?
  intro t
  have hbefore := htable.getElem?_evolved_unlockOld (t := t) hmono (hmono (Nat.le_succ h))
  rw [getElem?_getStakeset_docUpTo htable.genesisRows, htable.getElem?_evolved_succ hbefore]

/-- The genesis stakes of the three stakers, and one that starts in the next epoch. -/
theorem getStakeset_eq_evolved_firstStake :
    let db := (Ledger.committed (Ledger.firstStake ⟨4, 1, 5, 7⟩) [1, 2, 3]).shared.db
    ledger.getStakeset Ledger.threeStakers db 200000 =
        ledger.evolvedStakes Ledger.threeStakers db 200000 ∧
      ∀ db', SameRowsTo db db' 200000 →
        ledger.getStakeset Ledger.threeStakers db' 200000 =
          ledger.getStakeset Ledger.threeStakers db 200000 := by
  apply getStakeset_eq_evolved
  · exact fun _ _ h => Nat.div_le_div_right h
  · have hreach : (ledger.storage Ledger.threeStakers).lts.Reachable
        (Ledger.committed (Ledger.firstStake ⟨4, 1, 5, 7⟩) [1, 2, 3]) :=
      storageAfter_reachable _ _ (by decide +kernel)
    apply ((storage_reachable ledger_builds hreach).1.chain.wellFormed ledger_builds).stakeTable
    decide +kernel
  · decide

end Melstf

end Melnode
