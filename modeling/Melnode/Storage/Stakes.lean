import Melnode.Storage.Invariant

/-!
# The stake table against the state transition

Stakes are kept twice: in the states, and in rows of `stakes` that `apply_block` writes with a filter
of its own and `get_stakeset` reads back. The filter takes every `Stake` transaction whose data
decodes; the transition also asks that the document starts later, ends after it starts and stakes
what the first output holds. `getStakeset_next_iff` is the exact condition for one block,
`stakes_agree_iff` for all stored blocks.
-/

namespace Melnode

open Lib

namespace Melstf

variable {Sealed Unsealed : Type} {M : Melstf Sealed Unsealed} {genesis : GenesisConfig}

/-- The state after blocks `1..h` are applied to genesis one after the other. -/
def replay (M : Melstf Sealed Unsealed) (genesis : GenesisConfig) (db : Tables) : Nat → Option Sealed
  | 0 => some (M.genesisState genesis)
  | h + 1 => do
    let s ← replay M genesis db h
    let blk ← db.block? (h + 1)
    (M.applyBlock s blk).toOption

/-- Every stake the block puts into the table is one the transition admits, or already expired. -/
def StakesAdmitted (M : Melstf Sealed Unsealed) (blk : Block) : Prop :=
  ∀ tx ∈ blk.transactions, ∀ kv ∈ M.stakeRow blk.header tx,
    M.admittedStake blk.header tx = some kv.2.stakeDoc ∨
      kv.2.stakeDoc.ePostEnd ≤ M.epoch blk.header.height

instance (blk : Block) : Decidable (M.StakesAdmitted blk) :=
  inferInstanceAs (Decidable (∀ tx ∈ blk.transactions, ∀ kv ∈ M.stakeRow blk.header tx, _ ∨ _))

/-- At every stored height the rebuilt stakes are those of the replayed state, and `get_state`
returns that state: its assertion does not fire. -/
def StakesAgree (M : Melstf Sealed Unsealed) (genesis : GenesisConfig) (db : Tables) : Prop :=
  ∀ h, 1 ≤ h → h ≤ db.highestHeight → ∃ s, M.replay genesis db h = some s ∧
    M.getStakeset genesis db h = M.rawStakes s ∧ M.getState genesis db h = .ok (some s)

/-! ## The stakes a block adds to the state -/

section Evolve

/-- The stakes the transition adds for a block. -/
def newStakes (M : Melstf Sealed Unsealed) (blk : Block) : List (TxHash × StakeDoc) :=
  blk.transactions.filterMap fun tx =>
    (M.admittedStake blk.header tx).map fun doc => (M.hashNosigs tx, doc)

theorem evolveStakes_eq (stakes : StakeSet) (blk : Block) :
    M.evolveStakes stakes blk = (M.newStakes blk).foldl (fun acc kv => acc.insert kv.1 kv.2)
      (stakes.unlockOld (M.epoch blk.header.height)) := by
  unfold evolveStakes newStakes
  generalize stakes.unlockOld (M.epoch blk.header.height) = base
  generalize blk.transactions = txs
  induction txs generalizing base with
  | nil => rfl
  | cons tx txs ih =>
    rw [List.foldl_cons, ih]
    unfold addAdmitted
    cases hdoc : M.admittedStake blk.header tx with
    | none =>
      rw [List.filterMap_cons_none (by rw [hdoc]; rfl)]
    | some doc =>
      rw [List.filterMap_cons_some (b := (M.hashNosigs tx, doc)) (by rw [hdoc]; rfl)]
      rfl

/-- What the transition admits is in the table as well. -/
theorem stakeRow_of_admitted {hd : Header} {tx : Transaction} {doc : StakeDoc}
    (h : M.admittedStake hd tx = some doc) :
    M.stakeRow hd tx = some (M.hashNosigs tx, ⟨hd.height, doc⟩) ∧ M.epoch hd.height < doc.ePostEnd := by
  unfold admittedStake at h
  split at h
  · next hgate =>
    obtain ⟨hdoc, htest⟩ := Option.filter_eq_some_iff.mp h
    simp only [Bool.and_eq_true, decide_eq_true_eq] at htest
    refine ⟨stakeRow_eq_some.mpr ⟨hgate.1, hdoc, hgate.2, rfl, rfl⟩, ?_⟩
    omega
  · cases h

theorem mem_newStakes {blk : Block} {t : TxHash} {doc : StakeDoc} :
    (t, doc) ∈ M.newStakes blk ↔
      ∃ tx ∈ blk.transactions, M.admittedStake blk.header tx = some doc ∧ M.hashNosigs tx = t := by
  unfold newStakes
  rw [List.mem_filterMap]
  constructor
  · rintro ⟨tx, htx, h⟩
    obtain ⟨d, hd, heq⟩ := Option.map_eq_some_iff.mp h
    cases heq
    exact ⟨tx, htx, hd, rfl⟩
  · rintro ⟨tx, htx, hd, rfl⟩
    exact ⟨tx, htx, Option.map_eq_some_iff.mpr ⟨doc, hd, rfl⟩⟩

theorem newStakes_sublist (blk : Block) :
    ((M.newStakes blk).map Prod.fst).Sublist ((M.blockStakes blk).map Prod.fst) := by
  apply Table.keys_sublist
  intro tx t doc h
  obtain ⟨d, hd, heq⟩ := Option.map_eq_some_iff.mp h
  cases heq
  exact ⟨_, (stakeRow_of_admitted hd).1⟩

end Evolve

/-! ## The stakes read back -/

section Rebuild

variable {db : Tables} {blk : Block} {s : Sealed} {h : Nat}

/-- The document stored under a hash up to a height, expired or not. -/
def docUpTo (db : Tables) (h : Nat) (t : TxHash) : Option StakeDoc :=
  (db.stakes[t]?.filter fun row => decide (row.height ≤ h)).map StakeRow.stakeDoc

theorem docUpTo_of_row {t : TxHash} {row : StakeRow} (hrow : db.stakes[t]? = some row) :
    docUpTo db h t = if row.height ≤ h then some row.stakeDoc else none := by
  unfold docUpTo
  rw [hrow]
  by_cases hle : row.height ≤ h
  · simp [hle]
  · have hlt : h < row.height := Nat.lt_of_not_le hle
    simp [hle, hlt]

theorem docUpTo_succ_of_not_row {t : TxHash}
    (hnot : ∀ row, db.stakes[t]? = some row → row.height ≠ h + 1) :
    docUpTo db (h + 1) t = docUpTo db h t := by
  cases hrow : db.stakes[t]? with
  | none =>
    unfold docUpTo
    rw [hrow]
    rfl
  | some row =>
    have hne := hnot row hrow
    rw [docUpTo_of_row hrow, docUpTo_of_row hrow]
    by_cases hle : row.height ≤ h
    · rw [if_pos hle, if_pos (Nat.le_succ_of_le hle)]
    · rw [if_neg hle, if_neg]
      omega

/-- The rows of height 0 are the genesis stakes. -/
def GenesisRows (genesis : GenesisConfig) (db : Tables) : Prop :=
  ∀ (t : TxHash) (doc : StakeDoc), db.stakes[t]? = some ⟨0, doc⟩ ↔ genesis.stakes[t]? = some doc

theorem WellFormed.genesisRows (hwf : M.WellFormed genesis db) : GenesisRows genesis db := by
  intro t doc
  rw [hwf.stake_row]
  constructor
  · rintro (⟨-, hgen⟩ | ⟨blk, hblk, -⟩)
    · exact hgen
    · exact absurd (hwf.block_le hblk).1 (Nat.not_succ_le_zero 0)
  · exact fun hgen => Or.inl ⟨rfl, hgen⟩

section GenesisRows

variable (hgen : GenesisRows genesis db)
include hgen

theorem docUpTo_zero (t : TxHash) : docUpTo db 0 t = genesis.stakes[t]? := by
  apply Option.ext
  intro doc
  rw [← hgen]
  unfold docUpTo
  rw [Option.map_eq_some_iff]
  constructor
  · rintro ⟨⟨height, doc'⟩, hrow, rfl⟩
    obtain ⟨hrow, hzero⟩ := Option.filter_eq_some_iff.mp hrow
    obtain rfl : height = 0 := Nat.le_zero.mp (of_decide_eq_true hzero)
    exact hrow
  · intro hrow
    exact ⟨⟨0, doc⟩, Option.filter_eq_some_iff.mpr ⟨hrow, rfl⟩, rfl⟩

/-- Every genesis stake has its row, so the genesis stakes add nothing to the rows. -/
theorem docUpTo_or_genesis (t : TxHash) :
    (docUpTo db h t).or genesis.stakes[t]? = docUpTo db h t := by
  cases hdoc : genesis.stakes[t]? with
  | none => rw [Option.or_none]
  | some doc =>
    rw [docUpTo_of_row ((hgen t doc).mpr hdoc), if_pos (Nat.zero_le h)]
    rfl

theorem getElem?_getStakeset_docUpTo (t : TxHash) :
    (M.getStakeset genesis db h)[t]? =
      (docUpTo db h t).filter fun doc => decide (M.epoch h < doc.ePostEnd) := by
  have hor := docUpTo_or_genesis (h := h) hgen t
  rw [getElem?_getStakeset]
  unfold docUpTo at hor ⊢
  rw [hor]

end GenesisRows

/-- What has expired at height `h` has expired in every later epoch. -/
theorem filter_later {h epoch : Nat} (hle : M.epoch h ≤ epoch) (o : Option StakeDoc) :
    ((o.filter fun doc => decide (M.epoch h < doc.ePostEnd)).filter fun doc =>
      decide (epoch < doc.ePostEnd)) = o.filter fun doc => decide (epoch < doc.ePostEnd) := by
  rw [Option.filter_filter]
  congr 1
  funext doc
  by_cases hlt : epoch < doc.ePostEnd
  · simp [hlt, Nat.lt_of_le_of_lt hle hlt]
  · simp [hlt]

/-- From the epoch of height `h` on, the stakes of `s` and the rows up to `h` unlock to the same. -/
def Tracks (M : Melstf Sealed Unsealed) (db : Tables) (h : Nat) (s : Sealed) : Prop :=
  ∀ epoch, M.epoch h ≤ epoch → ∀ t, ((M.rawStakes s).unlockOld epoch)[t]? =
    (docUpTo db h t).filter fun doc => decide (epoch < doc.ePostEnd)

theorem tracks_genesis (hE : M.EvolvesStakes) (hwf : M.WellFormed genesis db) :
    M.Tracks db 0 (M.genesisState genesis) := by
  intro epoch _ t
  rw [StakeSet.getElem?_unlockOld, hE.genesis_stakes, docUpTo_zero hwf.genesisRows]

theorem tracks_of_agree (hwf : M.WellFormed genesis db)
    (hagree : M.getStakeset genesis db h = M.rawStakes s) : M.Tracks db h s := by
  intro epoch hle t
  rw [StakeSet.getElem?_unlockOld, ← hagree, getElem?_getStakeset_docUpTo hwf.genesisRows,
    filter_later hle]

section Next

variable (hwf : M.WellFormed genesis db) (hblk : db.block? (h + 1) = some blk)
  (htracks : M.Tracks db h s) (hmono : Monotone M.epoch)

include hwf hblk in
/-- A row of the block's own height is one the block put there. -/
theorem blockStakes_row {t : TxHash} {row : StakeRow} (hmem : (t, row) ∈ M.blockStakes blk) :
    db.stakes[t]? = some row ∧ row.height = h + 1 := by
  have hheight := height_of_mem_blockStakes hmem
  rw [hwf.block_height hblk] at hheight
  refine ⟨(hwf.stake_row t row).mpr (Or.inr ⟨blk, ?_, hmem⟩), hheight⟩
  rw [hheight]
  exact hblk

include hwf hblk in
theorem docUpTo_succ_of_not_mem {t : TxHash} (hnot : t ∉ (M.blockStakes blk).map Prod.fst) :
    docUpTo db (h + 1) t = docUpTo db h t := by
  apply docUpTo_succ_of_not_row
  intro row hrow heq
  rcases (hwf.stake_row t row).mp hrow with ⟨h0, -⟩ | ⟨b, hb, hmem⟩
  · omega
  · rw [heq, hblk] at hb
    cases hb
    exact hnot (List.mem_map.mpr ⟨(t, row), hmem, rfl⟩)

include hwf hblk htracks hmono in
/-- The evolved stakes at a hash: what the block adds, else what was there. -/
theorem getElem?_evolveStakes (t : TxHash) :
    (∀ doc, (t, doc) ∈ M.newStakes blk → (M.evolveStakes (M.rawStakes s) blk)[t]? = some doc) ∧
      (t ∉ (M.newStakes blk).map Prod.fst → (M.evolveStakes (M.rawStakes s) blk)[t]? =
        (docUpTo db h t).filter fun doc => decide (M.epoch (h + 1) < doc.ePostEnd)) := by
  have hnodup : ((M.newStakes blk).map Prod.fst).Nodup :=
    (hwf.stakes_nodup hblk).sublist (newStakes_sublist blk)
  rw [evolveStakes_eq, hwf.block_height hblk]
  obtain ⟨hin, hout⟩ := Table.getElem?_foldl_insert id
    (m := (M.rawStakes s).unlockOld (M.epoch (h + 1))) hnodup t
  refine ⟨hin, fun hnot => ?_⟩
  rw [← htracks (M.epoch (h + 1)) (hmono (Nat.le_succ h)) t]
  exact hout hnot

include hwf hblk htracks hmono in
/-- **One block, exactly**: the stakes read back after it are the stakes of the next state if and
only if every stake it puts into the table is admitted or expired. -/
theorem getStakeset_next_iff :
    M.getStakeset genesis db (h + 1) = M.evolveStakes (M.rawStakes s) blk ↔
      M.StakesAdmitted blk := by
  have hheight := hwf.block_height hblk
  have hnodup := hwf.stakes_nodup hblk
  constructor
  · intro heq tx htx ⟨t, row⟩ hrow
    by_cases hexp : row.stakeDoc.ePostEnd ≤ M.epoch blk.header.height
    · exact Or.inr hexp
    · left
      -- the row is read back, so the transition added a document under its hash
      have hmem : (t, row) ∈ M.blockStakes blk := List.mem_filterMap.mpr ⟨tx, htx, hrow⟩
      obtain ⟨hstored, hrowheight⟩ := blockStakes_row hwf hblk hmem
      have hread : (M.getStakeset genesis db (h + 1))[t]? = some row.stakeDoc := by
        rw [getElem?_getStakeset_docUpTo hwf.genesisRows, docUpTo_of_row hstored,
          if_pos (Nat.le_of_eq hrowheight)]
        rw [hheight] at hexp
        simp [Nat.lt_of_not_le hexp]
      rw [heq] at hread
      obtain ⟨hin, hout⟩ := getElem?_evolveStakes hwf hblk htracks hmono t
      have hkey : t ∈ (M.newStakes blk).map Prod.fst := by
        by_contra hnot
        rw [hout hnot, docUpTo_of_row hstored, if_neg (by omega)] at hread
        cases hread
      obtain ⟨⟨t', doc⟩, hnew, rfl⟩ := List.mem_map.mp hkey
      rw [hin doc hnew] at hread
      obtain ⟨tx', htx', hadm, hhash⟩ := mem_newStakes.mp hnew
      have hrow' := (stakeRow_of_admitted hadm).1
      rw [hhash] at hrow'
      have hsame : tx' = tx := Table.eq_of_key_eq hnodup htx' htx hrow' hrow
      rw [← hsame, hadm, hread]
  · intro hadmitted
    apply Std.ExtTreeMap.ext_getElem?
    intro t
    obtain ⟨hin, hout⟩ := getElem?_evolveStakes hwf hblk htracks hmono t
    rw [getElem?_getStakeset_docUpTo hwf.genesisRows]
    by_cases hkey : t ∈ (M.blockStakes blk).map Prod.fst
    · obtain ⟨⟨t', row⟩, hmem, rfl⟩ := List.mem_map.mp hkey
      obtain ⟨hstored, hrowheight⟩ := blockStakes_row hwf hblk hmem
      obtain ⟨tx, htx, hrow⟩ := List.mem_filterMap.mp hmem
      rw [docUpTo_of_row hstored, if_pos (Nat.le_of_eq hrowheight)]
      rcases hadmitted tx htx _ hrow with hadm | hexp
      · -- admitted: both have it
        have hlater := (stakeRow_of_admitted hadm).2
        rw [hheight] at hlater
        have hhash := (stakeRow_eq_some.mp hrow).2.2.2.1
        rw [hin _ (mem_newStakes.mpr ⟨tx, htx, hadm, hhash⟩)]
        simp [hlater]
      · -- expired: neither has it
        have hold : row.stakeDoc.ePostEnd ≤ M.epoch (h + 1) := hheight ▸ hexp
        have hnot : t' ∉ (M.newStakes blk).map Prod.fst := by
          intro hkey'
          obtain ⟨⟨t'', doc⟩, hnew, heq⟩ := List.mem_map.mp hkey'
          obtain rfl : t'' = t' := heq
          obtain ⟨tx', htx', hadm, hhash⟩ := mem_newStakes.mp hnew
          obtain ⟨hrow', hlater⟩ := stakeRow_of_admitted hadm
          rw [hhash] at hrow'
          have hsame : tx' = tx := Table.eq_of_key_eq hnodup htx' htx hrow' hrow
          rw [hsame, hrow, Option.some.injEq, Prod.mk.injEq] at hrow'
          rw [hrow'.2, ← hheight] at hold
          exact absurd hlater (Nat.not_lt.mpr hold)
        rw [hout hnot, docUpTo_of_row hstored, if_neg (by omega)]
        simp [hold]
    · have hnot : t ∉ (M.newStakes blk).map Prod.fst :=
        fun hnew => hkey ((newStakes_sublist blk).mem hnew)
      rw [hout hnot, docUpTo_succ_of_not_mem hwf hblk hkey]

end Next

end Rebuild

/-! ## All stored blocks -/

section Agree

variable {db : Tables}

theorem replay_succ {h : Nat} {s' : Sealed} (hs' : M.replay genesis db (h + 1) = some s') :
    ∃ s blk, M.replay genesis db h = some s ∧ db.block? (h + 1) = some blk ∧
      M.applyBlock s blk = .ok s' := by
  unfold replay at hs'
  obtain ⟨s, hs, hs'⟩ := Option.bind_eq_some_iff.mp hs'
  obtain ⟨blk, hblk, hs'⟩ := Option.bind_eq_some_iff.mp hs'
  cases happly : M.applyBlock s blk with
  | error e =>
    rw [happly] at hs'
    cases hs'
  | ok s₁ =>
    rw [happly] at hs'
    cases hs'
    exact ⟨s, blk, hs, hblk, happly⟩

theorem tracks_of_replay (hE : M.EvolvesStakes) (hwf : M.WellFormed genesis db)
    (hagree : M.StakesAgree genesis db) {h : Nat} (hle : h ≤ db.highestHeight) {s : Sealed}
    (hs : M.replay genesis db h = some s) : M.Tracks db h s := by
  rcases Nat.eq_zero_or_pos h with rfl | hpos
  · cases hs
    exact tracks_genesis hE hwf
  · obtain ⟨s₁, hs₁, hstakes, -⟩ := hagree h hpos hle
    rw [hs] at hs₁
    cases hs₁
    exact tracks_of_agree hwf hstakes

/-- Where every block's stakes are admitted, each height's state is the replayed one. -/
theorem replay_of_admitted (hE : M.EvolvesStakes) (hmono : Monotone M.epoch)
    (hwf : M.WellFormed genesis db)
    (hadmitted : ∀ h blk, db.block? h = some blk → M.StakesAdmitted blk) :
    ∀ h ≤ db.highestHeight, ∃ s, M.replay genesis db h = some s ∧
      M.stateAt genesis db h = .ok s ∧ M.Tracks db h s ∧
      (1 ≤ h → M.getStakeset genesis db h = M.rawStakes s ∧
        M.getState genesis db h = .ok (some s)) := by
  intro h
  induction h with
  | zero =>
    intro _
    refine ⟨M.genesisState genesis, rfl, stateAt_zero db, tracks_genesis hE hwf, ?_⟩
    intro h1
    omega
  | succ h ih =>
    intro hle
    obtain ⟨s, hs, hstate, htracks, -⟩ := ih (Nat.le_of_succ_le hle)
    obtain ⟨blk, hblk⟩ := hwf.block_isSome (Nat.succ_le_succ (Nat.zero_le h)) hle
    obtain ⟨cproof, s₁, s', -, hs₁, hcheck⟩ := hwf.accepted hblk
    rw [hstate] at hs₁
    cases hs₁
    have happly := (checkBlock_ok_iff.mp hcheck).2.2
    have hstakes : M.getStakeset genesis db (h + 1) = M.rawStakes s' := by
      rw [(getStakeset_next_iff hwf hblk htracks hmono).mpr (hadmitted _ _ hblk)]
      exact (hE.rawStakes_eq happly).symm
    have hhash : M.stakesHash (M.getStakeset genesis db (h + 1)) = blk.header.stakesHash := by
      rw [hstakes]
      exact hE.stakesHash_eq happly
    have hget : M.getState genesis db (h + 1) = .ok (some s') := by
      unfold getState rebuildState
      rw [hblk]
      simp only [hhash, if_true, Except.map]
      rw [hstakes, hE.fromBlock_eq happly]
    refine ⟨s', ?_, ?_, tracks_of_agree hwf hstakes, fun _ => ⟨hstakes, hget⟩⟩
    · unfold replay
      rw [hs, hblk]
      simp only [Option.bind_eq_bind, Option.bind_some, happly]
      rfl
    · unfold stateAt
      rw [if_pos (Nat.succ_pos h), hget]

/-- On tables in step, the stakes agree at every height if and only if every block's are admitted. -/
theorem stakesAgree_iff_admitted (hE : M.EvolvesStakes) (hmono : Monotone M.epoch)
    (hwf : M.WellFormed genesis db) :
    M.StakesAgree genesis db ↔ ∀ h blk, db.block? h = some blk → M.StakesAdmitted blk := by
  constructor
  · intro hagree h blk hblk
    obtain ⟨h1, hle⟩ := hwf.block_le hblk
    obtain ⟨h, rfl⟩ := Nat.exists_eq_add_of_le' h1
    obtain ⟨s', hs', hstakes, -⟩ := hagree (h + 1) h1 hle
    obtain ⟨s, b, hs, hb, happly⟩ := replay_succ hs'
    rw [hblk] at hb
    cases hb
    have htracks := tracks_of_replay hE hwf hagree (Nat.le_of_succ_le hle) hs
    apply (getStakeset_next_iff hwf hblk htracks hmono).mp
    rw [hstakes]
    exact hE.rawStakes_eq happly
  · intro hadmitted h h1 hle
    obtain ⟨s, hs, -, -, hgood⟩ := replay_of_admitted hE hmono hwf hadmitted h hle
    exact ⟨s, hs, hgood h1⟩

end Agree

/-- **The two stake records, exactly**: in every state a storage can reach, the stakes read back at
every stored height are those of the replayed state, and the assertion of `get_state` holds, if and
only if every stake the stored blocks put into the table is admitted by the transition or expired. -/
theorem stakes_agree_iff (hB : M.BuildsStates) (hE : M.EvolvesStakes) (hmono : Monotone M.epoch)
    {c : Procs.Config Nat (Shared Unsealed) (Call Sealed)}
    (hc : (M.storage genesis).lts.Reachable c) :
    M.StakesAgree genesis c.shared.db ↔
      ∀ h blk, c.shared.db.block? h = some blk → M.StakesAdmitted blk :=
  stakesAgree_iff_admitted hE hmono ((storage_reachable hB hc).1.chain.wellFormed hB)

/-- A stake for a later epoch, admitted and recorded alike. -/
theorem stakes_agree_iff_later :
    ledger.StakesAgree Ledger.threeStakers
        (Ledger.committed (Ledger.firstStake ⟨4, 1, 5, 7⟩) [1, 2, 3]).shared.db ↔
      ∀ h blk, (Ledger.committed (Ledger.firstStake ⟨4, 1, 5, 7⟩) [1, 2, 3]).shared.db.block? h =
        some blk → ledger.StakesAdmitted blk :=
  stakes_agree_iff ledger_builds ledger_evolves (fun _ _ h => Nat.div_le_div_right h)
    (storageAfter_reachable _ _ (by decide +kernel))

/-- The storage of the three-staker network that commits a stake for the current epoch and reads the
highest state back. -/
def currentEpochStake : Procs.Config Nat (Shared Ledger.Unsealed) (Call Ledger.Sealed) :=
  let blk := Ledger.firstStake ⟨4, 0, 5, 7⟩
  ledger.storageAfter Ledger.threeStakers
    (ofCall 0 ([.invoke blk (Ledger.proofBy [1, 2, 3] blk), .acquire] ++ reads 0 ++
      [.check, .start, .commit] ++ reads 1))

/-- The transition ignores a stake that starts in the current epoch, the table records it, and the
next `highest_state` fails its assertion. -/
theorem stakes_agree_currentEpoch :
    (ledger.storage Ledger.threeStakers).lts.Reachable currentEpochStake ∧
      currentEpochStake.shared.db.highestHeight = 1 ∧
      (ledger.replay Ledger.threeStakers currentEpochStake.shared.db 1).map ledger.rawStakes ≠
        some (ledger.getStakeset Ledger.threeStakers currentEpochStake.shared.db 1) ∧
      ledger.highestState Ledger.threeStakers currentEpochStake.shared.db =
        .error .stakesHashMismatch ∧
      currentEpochStake.shared.crashed = true ∧
      ¬ ledger.StakesAgree Ledger.threeStakers currentEpochStake.shared.db := by
  have hH : currentEpochStake.shared.db.highestHeight = 1 := by decide +kernel
  have hne : (ledger.replay Ledger.threeStakers currentEpochStake.shared.db 1).map ledger.rawStakes ≠
      some (ledger.getStakeset Ledger.threeStakers currentEpochStake.shared.db 1) := by
    decide +kernel
  refine ⟨storageAfter_reachable _ _ (by decide +kernel), hH, hne, by decide +kernel,
    by decide +kernel, ?_⟩
  intro hagree
  obtain ⟨s, hs, hstakes, -⟩ := hagree 1 (Nat.le_refl 1) (Nat.le_of_eq hH.symm)
  apply hne
  rw [hs, hstakes]
  rfl

end Melstf

end Melnode
