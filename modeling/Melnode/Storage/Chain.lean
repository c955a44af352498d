import Melnode.Storage.Rows

/-!
# Chains

`Chain M genesis db` says that `db` is what a sequence of accepted blocks leaves in the tables.
`WellFormed` is the invariant of such tables: the heights are `1..H` in both `history` and
`consensus_proofs`, every row of `stakes` has an origin, and every block was accepted on the state
below it.
-/

namespace Melnode

open Lib

namespace Melstf

variable {Sealed Unsealed : Type} {M : Melstf Sealed Unsealed} {genesis : GenesisConfig}

/-- The tables that a sequence of accepted blocks leaves. -/
inductive Chain (M : Melstf Sealed Unsealed) (genesis : GenesisConfig) : Tables → Prop where
  | opened : Chain M genesis (Tables.opened genesis Tables.fresh)
  | commit {db db' : Tables} {s s' : Sealed} {blk : Block} {cproof : ConsensusProof}
      (hchain : Chain M genesis db) (hs : M.highestState genesis db = .ok s)
      (hcheck : M.checkBlock s blk cproof = .ok s')
      (hins : M.insertBlock db blk cproof = some db') : Chain M genesis db'

/-- The three tables are in step with each other and with the state transition. -/
structure WellFormed (M : Melstf Sealed Unsealed) (genesis : GenesisConfig) (db : Tables) :
    Prop where
  height_mem : ∀ h, h ∈ db.history ↔ 1 ≤ h ∧ h ≤ db.highestHeight
  history_row : ∀ {h : Nat} {row : HistoryRow}, db.history[h]? = some row →
    row.header = row.block.header ∧ row.block.header.height = h
  proof_mem : ∀ h, h ∈ db.consensusProofs ↔ h ∈ db.history
  stake_row : ∀ (t : TxHash) (row : StakeRow), db.stakes[t]? = some row ↔
    row.height = 0 ∧ genesis.stakes[t]? = some row.stakeDoc ∨
      ∃ blk, db.block? row.height = some blk ∧ (t, row) ∈ M.blockStakes blk
  stakes_nodup : ∀ {h : Nat} {blk : Block}, db.block? h = some blk → ((M.blockStakes blk).map Prod.fst).Nodup
  accepted : ∀ {h : Nat} {blk : Block}, db.block? (h + 1) = some blk →
    ∃ cproof s s', db.consensusProofs[h + 1]? = some cproof ∧ M.stateAt genesis db h = .ok s ∧
      M.checkBlock s blk cproof = .ok s'

theorem block?_eq_some {db : Tables} {h : Nat} {blk : Block} :
    db.block? h = some blk ↔ ∃ row, db.history[h]? = some row ∧ row.block = blk := by
  unfold Tables.block?
  exact Option.map_eq_some_iff

namespace WellFormed

variable {db db' : Tables} {blk : Block} {cproof : ConsensusProof} {s s' : Sealed} {h k : Nat}

theorem block_height (hwf : M.WellFormed genesis db) (hblk : db.block? h = some blk) :
    blk.header.height = h := by
  obtain ⟨row, hrow, rfl⟩ := block?_eq_some.mp hblk
  exact (hwf.history_row hrow).2

theorem block_isSome (hwf : M.WellFormed genesis db) (h1 : 1 ≤ h) (hh : h ≤ db.highestHeight) :
    ∃ blk, db.block? h = some blk := by
  have hmem : h ∈ db.history := (hwf.height_mem h).mpr ⟨h1, hh⟩
  obtain ⟨row, hrow⟩ := Option.isSome_iff_exists.mp (Std.ExtTreeMap.mem_iff_isSome_getElem?.mp hmem)
  exact ⟨row.block, block?_eq_some.mpr ⟨row, hrow, rfl⟩⟩

theorem block_le (hwf : M.WellFormed genesis db) (hblk : db.block? h = some blk) :
    1 ≤ h ∧ h ≤ db.highestHeight := by
  obtain ⟨row, hrow, rfl⟩ := block?_eq_some.mp hblk
  apply (hwf.height_mem h).mp
  rw [Std.ExtTreeMap.mem_iff_isSome_getElem?, hrow]
  rfl

theorem proof_of_block (hwf : M.WellFormed genesis db) (hblk : db.block? h = some blk) :
    ∃ cproof, db.consensusProofs[h]? = some cproof := by
  have hmem : h ∈ db.consensusProofs :=
    (hwf.proof_mem h).mpr ((hwf.height_mem h).mpr (hwf.block_le hblk))
  exact Option.isSome_iff_exists.mp (Std.ExtTreeMap.mem_iff_isSome_getElem?.mp hmem)

/-- No block is stored with an empty proof. -/
theorem proof_ne_empty (hwf : M.WellFormed genesis db)
    (hproof : db.consensusProofs[h]? = some cproof) : cproof ≠ ∅ := by
  have hmem : h ∈ db.consensusProofs := by
    rw [Std.ExtTreeMap.mem_iff_isSome_getElem?, hproof]
    rfl
  have hheight := (hwf.height_mem h).mp ((hwf.proof_mem h).mp hmem)
  obtain ⟨blk, hblk⟩ := hwf.block_isSome hheight.1 hheight.2
  obtain ⟨k, rfl⟩ : ∃ k, h = k + 1 := ⟨h - 1, by omega⟩
  obtain ⟨cproof', s, s', hproof', -, hcheck⟩ := hwf.accepted hblk
  rw [hproof] at hproof'
  cases hproof'
  rintro rfl
  exact voteCheck_empty _ _ (checkBlock_ok_iff.mp hcheck).2.1

/-- A state rebuilt for a height is at that height. -/
theorem stateAt_height (hB : M.BuildsStates) (hwf : M.WellFormed genesis db)
    (hs : M.stateAt genesis db k = .ok s) : (M.header s).height = k := by
  rcases Nat.eq_zero_or_pos k with rfl | hpos
  · rw [stateAt_zero] at hs
    cases hs
    exact hB.genesis_height genesis
  · obtain ⟨blk, hblk, -, rfl⟩ := stateAt_ok hpos hs
    rw [hB.header_fromBlock]
    exact hwf.block_height hblk

/-- Nothing is stored above the highest height. -/
theorem upTo_highestHeight (hwf : M.WellFormed genesis db) : db.upTo db.highestHeight = db := by
  apply Tables.ext
  · apply Std.ExtTreeMap.ext_getElem?
    intro k
    rw [Tables.history_upTo]
    by_cases hk : k ≤ db.highestHeight
    · rw [if_pos hk]
    · rw [if_neg hk, Std.ExtTreeMap.getElem?_eq_none]
      rw [hwf.height_mem]
      exact fun hle => hk hle.2
  · apply Std.ExtTreeMap.ext_getElem?
    intro k
    rw [Tables.consensusProofs_upTo]
    by_cases hk : k ≤ db.highestHeight
    · rw [if_pos hk]
    · rw [if_neg hk, Std.ExtTreeMap.getElem?_eq_none]
      rw [hwf.proof_mem, hwf.height_mem]
      exact fun hle => hk hle.2
  · apply Std.ExtTreeMap.ext_getElem?
    intro t
    rw [Tables.stakes_upTo]
    ext row
    simp only [Option.filter_eq_some_iff, decide_eq_true_eq, and_iff_left_iff_imp]
    intro hrow
    rcases (hwf.stake_row t row).mp hrow with ⟨h0, -⟩ | ⟨blk, hblk, -⟩
    · rw [h0]
      exact Nat.zero_le _
    · exact (hwf.block_le hblk).2

theorem isPrefix_refl (hwf : M.WellFormed genesis db) : db.IsPrefix db :=
  ⟨Nat.le_refl _, hwf.upTo_highestHeight⟩

/-- Tables with a prefix of their own height are that prefix. -/
theorem eq_of_isPrefix (hwf : M.WellFormed genesis db') (hpre : db.IsPrefix db')
    (h : db'.highestHeight = db.highestHeight) : db' = db := by
  rw [← hwf.upTo_highestHeight, h]
  exact hpre.eq

/-- Opening a database of the same genesis again changes nothing. -/
theorem opened_eq (hwf : M.WellFormed genesis db) : Tables.opened genesis db = db := by
  apply Tables.ext
  · rfl
  · rfl
  · apply Std.ExtTreeMap.ext_getElem?
    intro t
    unfold Tables.opened
    rw [Table.getElem?_insertMissing]
    cases hdoc : genesis.stakes[t]? with
    | none =>
      rw [Option.map_none, Option.or_none]
    | some doc =>
      have hrow : db.stakes[t]? = some ⟨0, doc⟩ := (hwf.stake_row t ⟨0, doc⟩).mpr (Or.inl ⟨rfl, hdoc⟩)
      rw [hrow]
      rfl

/-- A block accepted on the state at some stored height whose own height is free is the next
block. -/
theorem accepted_height (hB : M.BuildsStates) (hwf : M.WellFormed genesis db)
    (hk : k ≤ db.highestHeight) (hs : M.stateAt genesis db k = .ok s)
    (hcheck : M.checkBlock s blk cproof = .ok s') (hfree : db.history[blk.header.height]? = none) :
    k = db.highestHeight ∧ blk.header.height = db.highestHeight + 1 := by
  have hheight := (checkBlock_ok_iff.mp hcheck).1
  rw [hwf.stateAt_height hB hs] at hheight
  have hnot : blk.header.height ∉ db.history := by
    rw [Std.ExtTreeMap.mem_iff_isSome_getElem?, hfree]
    exact Bool.false_ne_true
  rw [hwf.height_mem] at hnot
  omega

theorem height_mem_inserted (hwf : M.WellFormed genesis db) (hins : M.Inserted db blk cproof db')
    (hheight : blk.header.height = db.highestHeight + 1) (k : Nat) :
    k ∈ db'.history ↔ 1 ≤ k ∧ k ≤ db.highestHeight + 1 := by
  rw [Std.ExtTreeMap.mem_iff_isSome_getElem?, hins.history, hheight]
  by_cases hk : db.highestHeight + 1 = k
  · rw [if_pos hk]
    simp only [Option.isSome_some, true_iff]
    omega
  · rw [if_neg hk, ← Std.ExtTreeMap.mem_iff_isSome_getElem?, hwf.height_mem]
    omega

theorem highestHeight_inserted (hwf : M.WellFormed genesis db) (hins : M.Inserted db blk cproof db')
    (hheight : blk.header.height = db.highestHeight + 1) :
    db'.highestHeight = db.highestHeight + 1 :=
  Tables.highestHeight_eq db' (hwf.height_mem_inserted hins hheight)

theorem block?_inserted (hins : M.Inserted db blk cproof db') (k : Nat) :
    db'.block? k = if blk.header.height = k then some blk else db.block? k := by
  unfold Tables.block?
  rw [hins.history]
  split <;> rfl

/-- **One block keeps the tables in step.** -/
theorem inserted (hB : M.BuildsStates) (hwf : M.WellFormed genesis db)
    (hs : M.highestState genesis db = .ok s) (hcheck : M.checkBlock s blk cproof = .ok s')
    (hins : M.Inserted db blk cproof db') : M.WellFormed genesis db' := by
  obtain ⟨-, hheight⟩ := hwf.accepted_height hB (Nat.le_refl _) hs hcheck hins.free
  have hH := hwf.highestHeight_inserted hins hheight
  have hpre : db'.upTo db.highestHeight = db :=
    hins.upTo hwf.upTo_highestHeight (by omega)
  have hold : ∀ j ≤ db.highestHeight, M.stateAt genesis db' j = M.stateAt genesis db j := by
    intro j hj
    rw [← stateAt_upTo db' hj, hpre]
  refine ⟨?_, ?_, ?_, ?_, ?_, ?_⟩
  · -- heights
    rw [hH]
    exact hwf.height_mem_inserted hins hheight
  · intro k row hrow
    rw [hins.history] at hrow
    split at hrow
    · next hk =>
      cases hrow
      exact ⟨rfl, hk⟩
    · exact hwf.history_row hrow
  · -- proofs
    intro k
    rw [Std.ExtTreeMap.mem_iff_isSome_getElem?, Std.ExtTreeMap.mem_iff_isSome_getElem?,
      hins.history, hins.proofs]
    split
    · simp
    · rw [← Std.ExtTreeMap.mem_iff_isSome_getElem?, ← Std.ExtTreeMap.mem_iff_isSome_getElem?]
      exact hwf.proof_mem k
  · -- stakes
    intro t row
    rw [hins.stakes, hwf.stake_row]
    constructor
    · rintro ((hgen | ⟨b, hb, hmem⟩) | hnew)
      · exact Or.inl hgen
      · refine Or.inr ⟨b, ?_, hmem⟩
        have hle := (hwf.block_le hb).2
        rw [block?_inserted hins, if_neg (by omega)]
        exact hb
      · refine Or.inr ⟨blk, ?_, hnew⟩
        rw [block?_inserted hins, if_pos (height_of_mem_blockStakes hnew).symm]
    · rintro (hgen | ⟨b, hb, hmem⟩)
      · exact Or.inl (Or.inl hgen)
      · rw [block?_inserted hins] at hb
        split at hb
        · cases hb
          exact Or.inr hmem
        · exact Or.inl (Or.inr ⟨b, hb, hmem⟩)
  · intro k b hb
    rw [block?_inserted hins] at hb
    split at hb
    · cases hb
      exact hins.nodup
    · exact hwf.stakes_nodup hb
  · -- acceptance
    intro j b hb
    rw [block?_inserted hins, hheight] at hb
    rw [hins.proofs, hheight]
    by_cases hj : db.highestHeight + 1 = j + 1
    · rw [if_pos hj] at hb
      obtain rfl : db.highestHeight = j := by omega
      cases hb
      rw [if_pos hj, hold _ (Nat.le_refl _)]
      exact ⟨cproof, s, s', rfl, hs, hcheck⟩
    · rw [if_neg hj] at hb
      have hle := (hwf.block_le hb).2
      rw [if_neg hj, hold j (by omega)]
      exact hwf.accepted hb

end WellFormed

/-! ## The tables of a chain -/

namespace Chain

variable {db db' : Tables} {blk : Block} {cproof : ConsensusProof} {s s' : Sealed} {h k : Nat}

theorem highestHeight_opened : (Tables.opened genesis Tables.fresh).highestHeight = 0 := by
  apply Tables.highestHeight_eq
  intro k
  have hempty : (Tables.opened genesis Tables.fresh).history[k]? = none :=
    Std.ExtTreeMap.getElem?_empty
  rw [Std.ExtTreeMap.mem_iff_isSome_getElem?, hempty]
  simp only [Option.isSome_none, Bool.false_eq_true, false_iff]
  omega

theorem wellFormed_opened : M.WellFormed genesis (Tables.opened genesis Tables.fresh) := by
  have hempty : ∀ k : Nat, (Tables.opened genesis Tables.fresh).history[k]? = none := by
    intro k
    exact Std.ExtTreeMap.getElem?_empty
  have hblock : ∀ k, (Tables.opened genesis Tables.fresh).block? k = none := by
    intro k
    unfold Tables.block?
    rw [hempty]
    rfl
  refine ⟨?_, ?_, ?_, ?_, ?_, ?_⟩
  · intro k
    rw [highestHeight_opened, Std.ExtTreeMap.mem_iff_isSome_getElem?, hempty]
    simp only [Option.isSome_none, Bool.false_eq_true, false_iff]
    omega
  · intro k row hrow
    rw [hempty] at hrow
    cases hrow
  · intro k
    rw [Std.ExtTreeMap.mem_iff_isSome_getElem?, Std.ExtTreeMap.mem_iff_isSome_getElem?, hempty]
    exact Iff.of_eq (congrArg (fun o : Option ConsensusProof => o.isSome = true)
      Std.ExtTreeMap.getElem?_empty)
  · intro t row
    have hrows : (Tables.opened genesis Tables.fresh).stakes[t]? =
        genesis.stakes[t]?.map (StakeRow.mk 0) := by
      unfold Tables.opened Tables.fresh
      rw [Table.getElem?_insertMissing, Std.ExtTreeMap.getElem?_empty]
      rfl
    rw [hrows, Option.map_eq_some_iff]
    constructor
    · rintro ⟨doc, hdoc, rfl⟩
      exact Or.inl ⟨rfl, hdoc⟩
    · rintro (⟨h0, hdoc⟩ | ⟨b, hb, -⟩)
      · refine ⟨row.stakeDoc, hdoc, ?_⟩
        rw [← h0]
      · rw [hblock] at hb
        cases hb
  · intro k b hb
    rw [hblock] at hb
    cases hb
  · intro k b hb
    rw [hblock] at hb
    cases hb

/-- **The tables of a chain are in step.** -/
theorem wellFormed (hB : M.BuildsStates) (hchain : M.Chain genesis db) :
    M.WellFormed genesis db := by
  induction hchain with
  | opened => exact wellFormed_opened
  | commit _ hs hcheck hins ih => exact ih.inserted hB hs hcheck (insertBlock_inserted hins)

/-- What one commit does to a chain. -/
theorem commit_spec (hB : M.BuildsStates) (hchain : M.Chain genesis db)
    (hs : M.highestState genesis db = .ok s) (hcheck : M.checkBlock s blk cproof = .ok s')
    (hins : M.insertBlock db blk cproof = some db') :
    blk.header.height = db.highestHeight + 1 ∧ db'.highestHeight = db.highestHeight + 1 ∧
      db.IsPrefix db' := by
  have hwf := hchain.wellFormed hB
  have hinserted := insertBlock_inserted hins
  obtain ⟨-, hheight⟩ := hwf.accepted_height hB (Nat.le_refl _) hs hcheck hinserted.free
  have hH := hwf.highestHeight_inserted hinserted hheight
  refine ⟨hheight, hH, ?_, hinserted.upTo hwf.upTo_highestHeight (by omega)⟩
  rw [hH]
  exact Nat.le_succ _

/-- SQLite stored every height, so it can. -/
theorem highestHeight_le_max (hB : M.BuildsStates) (hchain : M.Chain genesis db) :
    db.highestHeight ≤ maxSqlHeight := by
  cases hchain with
  | opened =>
    rw [highestHeight_opened]
    exact Nat.zero_le _
  | commit hchain hs hcheck hins =>
    obtain ⟨hheight, hH, -⟩ := hchain.commit_spec hB hs hcheck hins
    rw [hH, ← hheight]
    exact (insertBlock_eq_some.mp hins).1

/-- A chain cut at a height is a chain of that height. -/
theorem upTo (hB : M.BuildsStates) (hchain : M.Chain genesis db) :
    ∀ h ≤ db.highestHeight, M.Chain genesis (db.upTo h) ∧ (db.upTo h).highestHeight = h := by
  induction hchain with
  | opened =>
    have hwf : M.WellFormed genesis (Tables.opened genesis Tables.fresh) := wellFormed_opened
    intro h hh
    have hself := hwf.upTo_highestHeight
    rw [highestHeight_opened] at hh hself
    obtain rfl : h = 0 := Nat.le_zero.mp hh
    rw [hself]
    exact ⟨Chain.opened, highestHeight_opened⟩
  | @commit db db' s s' blk cproof hchain hs hcheck hins ih =>
    obtain ⟨-, hH, -, hpre⟩ := hchain.commit_spec hB hs hcheck hins
    intro h hh
    by_cases hle : h ≤ db.highestHeight
    · rw [← Tables.upTo_upTo db' hle, hpre]
      exact ih h hle
    · have hchain' := Chain.commit hchain hs hcheck hins
      have hwf := hchain'.wellFormed hB
      obtain rfl : h = db'.highestHeight := by omega
      rw [hwf.upTo_highestHeight]
      exact ⟨hchain', rfl⟩

/-- Every stored block extends the chain below it by one. -/
theorem next (hB : M.BuildsStates) (hchain : M.Chain genesis db) :
    ∀ h < db.highestHeight, ∃ blk cproof s s', db.block? (h + 1) = some blk ∧
      db.consensusProofs[h + 1]? = some cproof ∧ M.stateAt genesis db h = .ok s ∧
      M.checkBlock s blk cproof = .ok s' ∧
      M.insertBlock (db.upTo h) blk cproof = some (db.upTo (h + 1)) := by
  induction hchain with
  | opened =>
    intro h hh
    rw [highestHeight_opened] at hh
    exact absurd hh (Nat.not_lt_zero h)
  | @commit db db' s s' blk cproof hchain hs hcheck hins ih =>
    obtain ⟨hheight, hH, -, hpre⟩ := hchain.commit_spec hB hs hcheck hins
    have hinserted := insertBlock_inserted hins
    intro h hh
    by_cases hlt : h < db.highestHeight
    · obtain ⟨b, proof, t, t', hb, hproof, ht, ht', hinsert⟩ := ih h hlt
      refine ⟨b, proof, t, t', ?_, ?_, ?_, ht', ?_⟩
      · rw [WellFormed.block?_inserted hinserted, if_neg (by omega)]
        exact hb
      · rw [hinserted.proofs, if_neg (by omega)]
        exact hproof
      · rw [← stateAt_upTo db' (Nat.le_of_lt hlt), hpre]
        exact ht
      · rw [← Tables.upTo_upTo db' (Nat.le_of_lt hlt), ← Tables.upTo_upTo db' hlt, hpre]
        exact hinsert
    · have hwf' := (Chain.commit hchain hs hcheck hins).wellFormed hB
      obtain rfl : h = db.highestHeight := by omega
      refine ⟨blk, cproof, s, s', ?_, ?_, ?_, hcheck, ?_⟩
      · rw [WellFormed.block?_inserted hinserted, if_pos hheight]
      · rw [hinserted.proofs, if_pos hheight]
      · rw [← stateAt_upTo db' (Nat.le_refl _), hpre]
        exact hs
      · rw [hpre, ← hH, hwf'.upTo_highestHeight]
        exact hins

end Chain

end Melstf

end Melnode
