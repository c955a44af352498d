import Melnode.Lib.Lifetime
import Melnode.Sync.Blksync

/-!
# Coin lists and coin changes

`get_some_coins`, `get_coin_changes` and `get_coin_spend` wait until the indexer has reached the
highest stored height and then query it, `get_coin_changes` twice. The indexer may move on between
any two steps. The changes of a stored height, applied from left to right to the list of the height
before, give the list of the height (`coinChanges_exact`).
-/

namespace Melnode

open Lib

/-! ## The indexer -/

/-- `CoinID`. -/
structure CoinID where
  txhash : TxHash
  index : UInt8
  deriving DecidableEq, Repr

/-- `CoinSpendInfo`, as far as the node reads it. -/
structure CoinSpendInfo where
  spendTxhash : TxHash
  spendHeight : Nat
  deriving DecidableEq, Repr

/-- `CoinInfo`: the record of a coin in the indexer. -/
structure CoinInfo where
  createTxhash : TxHash
  createIndex : UInt8
  createHeight : Nat
  covhash : Address
  spendInfo : Option CoinSpendInfo
  deriving DecidableEq, Repr

/-- `CoinID::new(coin.create_txhash, coin.create_index)`. -/
def CoinInfo.coinId (coin : CoinInfo) : CoinID := ⟨coin.createTxhash, coin.createIndex⟩

/-- What a coin query can ask for. -/
inductive CoinCondition where
  | covhash (covhash : Address)
  | unspentBy (height : Nat)
  | createHeightRange (lo hi : Nat)
  | spendHeightRange (lo hi : Nat)
  | createTxhash (txhash : TxHash)
  | createIndex (index : UInt8)
  deriving DecidableEq, Repr

namespace CoinCondition

def holds (coin : CoinInfo) : CoinCondition → Bool
  | .covhash a => decide (coin.covhash = a)
  | .unspentBy height =>
    decide (coin.createHeight ≤ height) &&
      coin.spendInfo.all fun spend => decide (height < spend.spendHeight)
  | .createHeightRange lo hi =>
    decide (lo ≤ coin.createHeight) && decide (coin.createHeight ≤ hi)
  | .spendHeightRange lo hi =>
    coin.spendInfo.any fun spend => decide (lo ≤ spend.spendHeight) && decide (spend.spendHeight ≤ hi)
  | .createTxhash t => decide (coin.createTxhash = t)
  | .createIndex i => decide (coin.createIndex = i)

theorem holds_covhash {coin : CoinInfo} {a : Address} :
    (CoinCondition.covhash a).holds coin = true ↔ coin.covhash = a := decide_eq_true_iff

theorem holds_unspentBy {coin : CoinInfo} {height : Nat} :
    (unspentBy height).holds coin = true ↔ coin.createHeight ≤ height ∧
      ∀ k ≤ height, ∀ txhash, coin.spendInfo ≠ some ⟨txhash, k⟩ := by
  unfold holds
  rw [Bool.and_eq_true, decide_eq_true_eq]
  apply and_congr_right
  intro _
  cases coin.spendInfo with
  | none => simp
  | some spend =>
    rw [Option.all_some, decide_eq_true_eq]
    constructor
    · intro hlater k hk txhash heq
      cases heq
      exact absurd hlater (Nat.not_lt.mpr hk)
    · intro hnot
      by_contra hle
      exact hnot spend.spendHeight (Nat.le_of_not_lt hle) spend.spendTxhash rfl

theorem holds_createHeightRange_self {coin : CoinInfo} {height : Nat} :
    (createHeightRange height height).holds coin = true ↔ coin.createHeight = height := by
  unfold holds
  rw [Bool.and_eq_true, decide_eq_true_eq, decide_eq_true_eq]
  omega

theorem holds_spendHeightRange_self {coin : CoinInfo} {height : Nat} :
    (spendHeightRange height height).holds coin = true ↔
      ∃ txhash, coin.spendInfo = some ⟨txhash, height⟩ := by
  simp only [holds]
  cases coin.spendInfo with
  | none => simp
  | some spend =>
    rw [Option.any_some, Bool.and_eq_true, decide_eq_true_eq, decide_eq_true_eq]
    constructor
    · rintro ⟨hlo, hhi⟩
      obtain rfl : spend.spendHeight = height := Nat.le_antisymm hhi hlo
      exact ⟨spend.spendTxhash, rfl⟩
    · rintro ⟨txhash, heq⟩
      cases heq
      exact ⟨Nat.le_refl _, Nat.le_refl _⟩

end CoinCondition

/-- `melblkidx`: an indexer in a state of `ι` tells how far it is, and answers a `query_coins()` with
conditions. -/
structure CoinIndex (ι : Type) where
  maxHeight : ι → Nat
  queryCoins : ι → List CoinCondition → List CoinInfo

/-- All records. -/
def CoinIndex.records {ι : Type} (X : CoinIndex ι) (x : ι) : List CoinInfo := X.queryCoins x []

/-! ## The handlers -/

/-- `CoinChange`. -/
inductive CoinChange where
  | add (coin : CoinID)
  | delete (coin : CoinID) (spendTxhash : TxHash)
  deriving DecidableEq, Repr

/-- `CoinSpendStatus`. -/
inductive CoinSpendStatus where
  | notSpent
  | spent (txhash : TxHash) (height : Nat)
  deriving DecidableEq, Repr

/-- The `unwrap` of `get_coin_changes`. -/
inductive CoinPanic where
  | spendInfoMissing
  deriving DecidableEq, Repr

/-- The `Delete` of a coin that a query by spend height has found. -/
def deleteChange (coin : CoinInfo) : Except CoinPanic CoinChange :=
  match coin.spendInfo with
  | some spend => .ok (.delete coin.coinId spend.spendTxhash)
  | none => .error .spendInfoMissing

/-- The list that `get_coin_changes` makes of what its queries have found. -/
def changeList (addedCoins deletedCoins : List CoinInfo) :
    Except CoinPanic (Option (List CoinChange)) :=
  let added := addedCoins.map fun coin => CoinChange.add coin.coinId
  (deletedCoins.mapM deleteChange).map fun deleted => some (added ++ deleted)

section Handlers

variable {Unsealed ι : Type} (X : CoinIndex ι) (server : Nat → Shared Unsealed)
  (indexer : Option (Nat → ι))

/-- The loop of `get_indexer`; `index` is the indexer at each moment, of which `tick` have passed. -/
def awaitIndexer (index : Nat → ι) (height : Nat) : Nat → Nat → Option Nat
  | 0, _ => none
  | fuel + 1, tick =>
    if X.maxHeight (index tick) < height then
      awaitIndexer index height fuel (tick + 1)
    else
      some (tick + 1)

/-- `get_indexer`. -/
def getIndexer (fuel tick : Nat) : Option (Option (Nat → ι) × Nat) :=
  match indexer with
  | some index =>
    let height := (server tick).db.highestHeight
    (awaitIndexer X index height fuel (tick + 1)).map fun tick => (some index, tick)
  | none => some (none, tick)

/-- `get_some_coins`. -/
def getSomeCoins (height : Nat) (covhash : Address) (fuel tick : Nat) :
    Option (Option (List CoinID) × Nat) :=
  (getIndexer X server indexer fuel tick).map fun
    | (some index, tick) =>
      let coins := X.queryCoins (index tick) [.covhash covhash, .unspentBy height]
      (some (coins.map CoinInfo.coinId), tick + 1)
    | (none, tick) => (none, tick)

/-- `get_coin_changes`. -/
def getCoinChanges (height : Nat) (covhash : Address) (fuel tick : Nat) :
    Option (Except CoinPanic (Option (List CoinChange)) × Nat) :=
  match (server tick).getBlock height with
  | none => some (.ok none, tick + 1)
  | some _ =>
    (getIndexer X server indexer fuel (tick + 1)).map fun
      | (some index, tick) =>
        let deletedCoins :=
          X.queryCoins (index tick) [.covhash covhash, .spendHeightRange height height]
        let addedCoins :=
          X.queryCoins (index (tick + 1)) [.covhash covhash, .createHeightRange height height]
        (changeList addedCoins deletedCoins, tick + 2)
      | (none, tick) => (.ok none, tick)

/-- `get_coin_spend`. -/
def getCoinSpend (coin : CoinID) (fuel tick : Nat) : Option (Option CoinSpendStatus × Nat) :=
  (getIndexer X server indexer fuel tick).map fun
    | (some index, tick) =>
      let coins := X.queryCoins (index tick) [.createTxhash coin.txhash, .createIndex coin.index]
      let status := coins.head?.map fun info =>
        match info.spendInfo with
        | some spend => CoinSpendStatus.spent spend.spendTxhash spend.spendHeight
        | none => CoinSpendStatus.notSpent
      (status, tick + 1)
    | (none, tick) => (none, tick)

end Handlers

/-! ## Applying changes -/

/-- The coins after some changes, from left to right; a `Delete` needs its coin to be there. -/
def applyChanges (coins : Finset CoinID) : List CoinChange → Option (Finset CoinID)
  | [] => some coins
  | .add coin :: changes => applyChanges (insert coin coins) changes
  | .delete coin _ :: changes =>
    if coin ∈ coins then applyChanges (coins.erase coin) changes else none

theorem applyChanges_added (added : List CoinInfo) (changes : List CoinChange) :
    ∀ coins : Finset CoinID,
      applyChanges coins (added.map (fun coin => .add coin.coinId) ++ changes) =
        applyChanges (coins ∪ (added.map CoinInfo.coinId).toFinset) changes := by
  induction added with
  | nil =>
    intro coins
    simp
  | cons info added ih =>
    intro coins
    simp only [List.map_cons, List.cons_append, applyChanges, List.toFinset_cons]
    rw [ih, Finset.insert_union, Finset.union_insert]

theorem mem_mapM_deleteChange {change : CoinChange} : ∀ {deleted : List CoinInfo}
    {changes : List CoinChange}, deleted.mapM deleteChange = .ok changes → change ∈ changes →
      ∃ info ∈ deleted, deleteChange info = .ok change := by
  intro deleted
  induction deleted with
  | nil =>
    intro changes hchanges hmem
    cases hchanges
    cases hmem
  | cons info deleted ih =>
    intro changes hchanges hmem
    rw [List.mapM_cons] at hchanges
    cases hinfo : deleteChange info with
    | error e =>
      rw [hinfo] at hchanges
      cases hchanges
    | ok first =>
      cases hrest : deleted.mapM deleteChange with
      | error e =>
        rw [hinfo, hrest] at hchanges
        cases hchanges
      | ok rest =>
        rw [hinfo, hrest] at hchanges
        cases hchanges
        rcases List.mem_cons.mp hmem with rfl | hmem
        · exact ⟨info, List.mem_cons_self, hinfo⟩
        · obtain ⟨other, hother, hok⟩ := ih hrest hmem
          exact ⟨other, List.mem_cons_of_mem info hother, hok⟩

/-- A `Delete` comes from a record with its spend. -/
theorem mem_changeList {added deleted : List CoinInfo} {changes : List CoinChange} {coin : CoinID}
    {txhash : TxHash} (h : changeList added deleted = .ok (some changes))
    (hmem : CoinChange.delete coin txhash ∈ changes) :
    ∃ info ∈ deleted, ∃ spend, info.spendInfo = some spend ∧ info.coinId = coin ∧
      spend.spendTxhash = txhash := by
  unfold changeList at h
  cases hdeleted : deleted.mapM deleteChange with
  | error e =>
    rw [hdeleted] at h
    cases h
  | ok rest =>
    rw [hdeleted] at h
    cases h
    rcases List.mem_append.mp hmem with hadd | hdelete
    · obtain ⟨_, -, heq⟩ := List.mem_map.mp hadd
      cases heq
    · obtain ⟨info, hinfo, hok⟩ := mem_mapM_deleteChange hdeleted hdelete
      unfold deleteChange at hok
      split at hok
      · next spend hspend =>
        cases hok
        exact ⟨info, hinfo, spend, hspend, rfl, rfl⟩
      · cases hok

/-- Coins that have been spent, each once, and are there can be deleted. -/
theorem applyChanges_deleted : ∀ {deleted : List CoinInfo} {coins : Finset CoinID},
    (∀ info ∈ deleted, info.spendInfo ≠ none) → (deleted.map CoinInfo.coinId).Nodup →
      (∀ info ∈ deleted, info.coinId ∈ coins) →
      ∃ changes, deleted.mapM deleteChange = .ok changes ∧
        applyChanges coins changes = some (coins \ (deleted.map CoinInfo.coinId).toFinset) := by
  intro deleted
  induction deleted with
  | nil =>
    intro coins _ _ _
    refine ⟨[], rfl, ?_⟩
    simp [applyChanges]
  | cons info deleted ih =>
    intro coins hspent hnodup hmem
    obtain ⟨spend, hspend⟩ := Option.ne_none_iff_exists'.mp (hspent info List.mem_cons_self)
    obtain ⟨hnot, hnodup⟩ := List.nodup_cons.mp hnodup
    have hrest : ∀ other ∈ deleted, other.coinId ∈ coins.erase info.coinId := by
      intro other hother
      refine Finset.mem_erase.mpr ⟨?_, hmem other (List.mem_cons_of_mem _ hother)⟩
      intro heq
      exact hnot (List.mem_map.mpr ⟨other, hother, heq⟩)
    obtain ⟨changes, hchanges, happly⟩ :=
      ih (fun other hother => hspent other (List.mem_cons_of_mem _ hother)) hnodup hrest
    have hdelete : deleteChange info = .ok (.delete info.coinId spend.spendTxhash) := by
      unfold deleteChange
      rw [hspend]
    refine ⟨.delete info.coinId spend.spendTxhash :: changes, ?_, ?_⟩
    · rw [List.mapM_cons, hdelete, hchanges]
      rfl
    · unfold applyChanges
      rw [if_pos (hmem info List.mem_cons_self), happly, List.map_cons, List.toFinset_cons,
        Finset.sdiff_insert, Finset.erase_sdiff_comm]

/-- **A change list is exact**: with the coins of one height, the ones created at the next and the
ones spent at it, adding first and deleting then gives the coins of the next height. -/
theorem applyChanges_exact {L : Lifetimes CoinID} (hL : L.Lawful) {h : Nat}
    {before after : List CoinID} {added deleted : List CoinInfo}
    (hbefore : ∀ coin, coin ∈ before ↔ coin ∈ L.alive h)
    (hafter : ∀ coin, coin ∈ after ↔ coin ∈ L.alive (h + 1))
    (hadded : ∀ coin, coin ∈ added.map CoinInfo.coinId ↔ coin ∈ L.born (h + 1))
    (hdeleted : ∀ coin, coin ∈ deleted.map CoinInfo.coinId ↔ coin ∈ L.ending (h + 1))
    (hspent : ∀ info ∈ deleted, info.spendInfo ≠ none)
    (hnodup : (deleted.map CoinInfo.coinId).Nodup) :
    ∃ changes, changeList added deleted = .ok (some changes) ∧
      applyChanges before.toFinset changes = some after.toFinset := by
  -- a coin to delete was there before or has just been added
  have hthere : ∀ info ∈ deleted,
      info.coinId ∈ before.toFinset ∪ (added.map CoinInfo.coinId).toFinset := by
    intro info hinfo
    rw [Finset.mem_union, List.mem_toFinset, List.mem_toFinset, hbefore, hadded]
    apply hL.ending_subset
    exact (hdeleted info.coinId).mp (List.mem_map.mpr ⟨info, hinfo, rfl⟩)
  obtain ⟨changes, hchanges, happly⟩ := applyChanges_deleted hspent hnodup hthere
  refine ⟨added.map (fun coin => .add coin.coinId) ++ changes, ?_, ?_⟩
  · unfold changeList
    rw [hchanges]
    rfl
  rw [applyChanges_added, happly]
  congr 1
  ext coin
  rw [Finset.mem_sdiff, Finset.mem_union, List.mem_toFinset, List.mem_toFinset, List.mem_toFinset,
    List.mem_toFinset, hbefore, hadded, hdeleted, hafter, hL.alive_succ]
  rfl

/-! ## The coins of a chain -/

/-- What a chain does to coins: the ones it starts with, and what a block creates and spends. -/
structure CoinRules where
  genesisCoins : GenesisConfig → List (CoinID × Address)
  created : Block → List (CoinID × Address)
  spent : Block → List (CoinID × TxHash)

namespace CoinRules

variable (R : CoinRules) (genesis : GenesisConfig)

/-- The coin is created at a height, under a covenant. -/
def CreatedAt (db : Tables) (coin : CoinID) (covhash : Address) : Nat → Prop
  | 0 => (coin, covhash) ∈ R.genesisCoins genesis
  | h + 1 => ∃ blk, db.block? (h + 1) = some blk ∧ (coin, covhash) ∈ R.created blk

/-- A transaction of the block of a height spends the coin. -/
def SpentAt (db : Tables) (coin : CoinID) (txhash : TxHash) (h : Nat) : Prop :=
  ∃ blk, db.block? h = some blk ∧ (coin, txhash) ∈ R.spent blk

/-- The coins of a covenant in a stored chain. -/
def lifetimes (db : Tables) (covhash : Address) : Lifetimes CoinID where
  born h := {coin | R.CreatedAt genesis db coin covhash h}
  ended h := {coin | ∃ txhash, R.SpentAt db coin txhash h}

end CoinRules

/-- An indexer follows a chain: up to its height it holds one record for each coin created, with the
height, and with the height and the transaction of its spend, and queries select among its records.
It never falls back. -/
structure CoinIndex.Follows {Unsealed ι : Type} (X : CoinIndex ι) (R : CoinRules)
    (genesis : GenesisConfig) (server : Nat → Shared Unsealed) (index : Nat → ι) : Prop where
  maxHeight_le : ∀ tick, X.maxHeight (index tick) ≤ X.maxHeight (index (tick + 1))
  query : ∀ tick conditions, (X.queryCoins (index tick) conditions).Perm
    ((X.records (index tick)).filter fun coin => conditions.all fun c => c.holds coin)
  nodup : ∀ tick, ((X.records (index tick)).map CoinInfo.coinId).Nodup
  created : ∀ {tick h : Nat}, h ≤ X.maxHeight (index tick) → ∀ (coin : CoinID) (covhash : Address),
    R.CreatedAt genesis (server tick).db coin covhash h ↔
      ∃ info ∈ X.records (index tick), info.coinId = coin ∧ info.covhash = covhash ∧
        info.createHeight = h
  spent : ∀ {tick h : Nat}, h ≤ X.maxHeight (index tick) → ∀ info ∈ X.records (index tick),
    ∀ txhash : TxHash, R.SpentAt (server tick).db info.coinId txhash h ↔
      info.spendInfo = some ⟨txhash, h⟩
  created_le : ∀ {tick : Nat} {info : CoinInfo} {spend : CoinSpendInfo},
    info ∈ X.records (index tick) → info.spendInfo = some spend →
    spend.spendHeight ≤ X.maxHeight (index tick) → info.createHeight ≤ spend.spendHeight

namespace CoinRules

variable {R : CoinRules} {genesis : GenesisConfig} {db db' : Tables} {h : Nat}

theorem createdAt_isPrefix (hG : db.IsPrefix db') (hh : h ≤ db.highestHeight) {coin : CoinID}
    {covhash : Address} :
    R.CreatedAt genesis db' coin covhash h ↔ R.CreatedAt genesis db coin covhash h := by
  cases h with
  | zero => rfl
  | succ h => simp only [CreatedAt, hG.block?_eq hh]

theorem spentAt_isPrefix (hG : db.IsPrefix db') (hh : h ≤ db.highestHeight) {coin : CoinID}
    {txhash : TxHash} : R.SpentAt db' coin txhash h ↔ R.SpentAt db coin txhash h := by
  unfold SpentAt
  rw [hG.block?_eq hh]

end CoinRules

/-! ## What the queries answer -/

namespace CoinIndex.Follows

variable {Unsealed ι : Type} {X : CoinIndex ι} {R : CoinRules} {genesis : GenesisConfig}
  {server : Nat → Shared Unsealed} {index : Nat → ι} {tick h : Nat} {coin : CoinID}
  {covhash : Address} {info : CoinInfo}

theorem mem_query (hX : X.Follows R genesis server index) {conditions : List CoinCondition} :
    info ∈ X.queryCoins (index tick) conditions ↔
      info ∈ X.records (index tick) ∧ ∀ c ∈ conditions, c.holds info = true := by
  rw [(hX.query tick conditions).mem_iff, List.mem_filter, List.all_eq_true]

theorem nodup_query (hX : X.Follows R genesis server index) (conditions : List CoinCondition) :
    ((X.queryCoins (index tick) conditions).map CoinInfo.coinId).Nodup := by
  rw [((hX.query tick conditions).map CoinInfo.coinId).nodup_iff]
  exact (hX.nodup tick).sublist (List.filter_sublist.map CoinInfo.coinId)

/-- A coin has one record. -/
theorem query_coinId (hX : X.Follows R genesis server index)
    (hinfo : info ∈ X.records (index tick)) :
    (X.queryCoins (index tick)
      [.createTxhash info.createTxhash, .createIndex info.createIndex]).head? = some info := by
  have hmem : ∀ other, other ∈ X.queryCoins (index tick)
      [.createTxhash info.createTxhash, .createIndex info.createIndex] ↔
        other ∈ X.records (index tick) ∧ other.coinId = info.coinId := by
    intro other
    simp [hX.mem_query, CoinCondition.holds, CoinInfo.coinId]
  have hin := (hmem info).mpr ⟨hinfo, rfl⟩
  cases hquery : X.queryCoins (index tick)
      [.createTxhash info.createTxhash, .createIndex info.createIndex] with
  | nil =>
    rw [hquery] at hin
    cases hin
  | cons first rest =>
    obtain ⟨hfirst, hid⟩ := (hmem first).mp (hquery ▸ List.mem_cons_self)
    rw [List.head?_cons, List.inj_on_of_nodup_map (hX.nodup tick) hfirst hinfo hid]

section Caught

variable {db : Tables} (hX : X.Follows R genesis server index)
  (hG : db.IsPrefix (server tick).db) (hcaught : db.highestHeight ≤ X.maxHeight (index tick))
include hX hG hcaught

theorem born_iff (hh : h ≤ db.highestHeight) :
    coin ∈ (R.lifetimes genesis db covhash).born h ↔ ∃ info ∈ X.records (index tick),
      info.coinId = coin ∧ info.covhash = covhash ∧ info.createHeight = h := by
  rw [← hX.created (Nat.le_trans hh hcaught)]
  exact (CoinRules.createdAt_isPrefix hG hh).symm

theorem spentAt_iff (hh : h ≤ db.highestHeight) (hinfo : info ∈ X.records (index tick))
    {txhash : TxHash} :
    R.SpentAt db info.coinId txhash h ↔ info.spendInfo = some ⟨txhash, h⟩ := by
  rw [← hX.spent (Nat.le_trans hh hcaught) info hinfo]
  exact (CoinRules.spentAt_isPrefix hG hh).symm

theorem bornBy_iff (hh : h ≤ db.highestHeight) :
    coin ∈ (R.lifetimes genesis db covhash).bornBy h ↔ ∃ info ∈ X.records (index tick),
      info.coinId = coin ∧ info.covhash = covhash ∧ info.createHeight ≤ h := by
  constructor
  · rintro ⟨k, hk, hborn⟩
    obtain ⟨info, hinfo, hid, hcov, rfl⟩ :=
      (hX.born_iff hG hcaught (Nat.le_trans hk hh)).mp hborn
    exact ⟨info, hinfo, hid, hcov, hk⟩
  · rintro ⟨info, hinfo, hid, hcov, hk⟩
    exact ⟨info.createHeight, hk, (hX.born_iff hG hcaught (Nat.le_trans hk hh)).mpr
      ⟨info, hinfo, hid, hcov, rfl⟩⟩

/-- The stored chain spends no coin before it is created, and none twice. -/
theorem lawful (hle : ∀ {k : Nat} {blk : Block}, db.block? k = some blk → k ≤ db.highestHeight) :
    (R.lifetimes genesis db covhash).Lawful := by
  have hborn : ∀ {x : CoinID} {i : Nat}, x ∈ (R.lifetimes genesis db covhash).born i →
      ∃ info ∈ X.records (index tick), info.coinId = x ∧ info.createHeight = i := by
    intro x i hx
    have hi : i ≤ db.highestHeight := by
      cases i with
      | zero => exact Nat.zero_le _
      | succ i =>
        obtain ⟨blk, hblk, -⟩ := hx
        exact hle hblk
    obtain ⟨info, hinfo, hid, -, hheight⟩ := (hX.born_iff hG hcaught hi).mp hx
    exact ⟨info, hinfo, hid, hheight⟩
  have hended : ∀ {info : CoinInfo} {j : Nat}, info ∈ X.records (index tick) →
      info.coinId ∈ (R.lifetimes genesis db covhash).ended j →
        ∃ txhash, info.spendInfo = some ⟨txhash, j⟩ ∧ j ≤ db.highestHeight := by
    rintro info j hinfo ⟨txhash, hspent⟩
    have hj : j ≤ db.highestHeight := by
      obtain ⟨blk, hblk, -⟩ := hspent
      exact hle hblk
    exact ⟨txhash, (hX.spentAt_iff hG hcaught hj hinfo).mp hspent, hj⟩
  refine ⟨?_, ?_⟩
  · intro x i j hx hxj
    obtain ⟨info, hinfo, rfl, rfl⟩ := hborn hx
    obtain ⟨txhash, hspend, hj⟩ := hended hinfo hxj
    exact hX.created_le hinfo hspend (Nat.le_trans hj hcaught)
  · intro x i j k hx hxj hxk
    obtain ⟨info, hinfo, rfl, -⟩ := hborn hx
    obtain ⟨t, hspend, -⟩ := hended hinfo hxj
    obtain ⟨t', hspend', -⟩ := hended hinfo hxk
    rw [hspend] at hspend'
    cases hspend'
    rfl

theorem mem_unspentBy (hh : h ≤ db.highestHeight) :
    coin ∈ (X.queryCoins (index tick) [.covhash covhash, .unspentBy h]).map CoinInfo.coinId ↔
      coin ∈ (R.lifetimes genesis db covhash).alive h := by
  simp only [List.mem_map, hX.mem_query, List.forall_mem_cons, List.not_mem_nil, false_implies,
    implies_true, and_true, CoinCondition.holds_covhash, CoinCondition.holds_unspentBy]
  constructor
  · rintro ⟨info, ⟨hinfo, hcov, hborn, hunspent⟩, rfl⟩
    refine ⟨(hX.bornBy_iff hG hcaught hh).mpr ⟨info, hinfo, rfl, hcov, hborn⟩, ?_⟩
    rintro k hk ⟨txhash, hspent⟩
    apply hunspent k hk txhash
    exact (hX.spentAt_iff hG hcaught (Nat.le_trans hk hh) hinfo).mp hspent
  · rintro ⟨hborn, hunspent⟩
    obtain ⟨info, hinfo, rfl, hcov, hborn⟩ := (hX.bornBy_iff hG hcaught hh).mp hborn
    refine ⟨info, ⟨hinfo, hcov, hborn, ?_⟩, rfl⟩
    intro k hk txhash hspend
    exact hunspent k hk ⟨txhash, (hX.spentAt_iff hG hcaught (Nat.le_trans hk hh) hinfo).mpr hspend⟩

theorem mem_createdAt (hh : h ≤ db.highestHeight) :
    coin ∈ (X.queryCoins (index tick) [.covhash covhash, .createHeightRange h h]).map
        CoinInfo.coinId ↔ coin ∈ (R.lifetimes genesis db covhash).born h := by
  simp only [List.mem_map, hX.mem_query, List.forall_mem_cons, List.not_mem_nil, false_implies,
    implies_true, and_true, CoinCondition.holds_covhash, CoinCondition.holds_createHeightRange_self]
  rw [hX.born_iff hG hcaught hh]
  constructor
  · rintro ⟨info, ⟨hinfo, hcov, hheight⟩, hid⟩
    exact ⟨info, hinfo, hid, hcov, hheight⟩
  · rintro ⟨info, hinfo, hid, hcov, hheight⟩
    exact ⟨info, ⟨hinfo, hcov, hheight⟩, hid⟩

theorem mem_spentAt (hh : h ≤ db.highestHeight) :
    coin ∈ (X.queryCoins (index tick) [.covhash covhash, .spendHeightRange h h]).map
        CoinInfo.coinId ↔ coin ∈ (R.lifetimes genesis db covhash).ending h := by
  simp only [List.mem_map, hX.mem_query, List.forall_mem_cons, List.not_mem_nil, false_implies,
    implies_true, and_true, CoinCondition.holds_covhash, CoinCondition.holds_spendHeightRange_self]
  constructor
  · rintro ⟨info, ⟨hinfo, hcov, txhash, hspend⟩, rfl⟩
    have hborn := hX.created_le hinfo hspend (Nat.le_trans hh hcaught)
    exact ⟨(hX.bornBy_iff hG hcaught hh).mpr ⟨info, hinfo, rfl, hcov, hborn⟩, txhash,
      (hX.spentAt_iff hG hcaught hh hinfo).mpr hspend⟩
  · rintro ⟨hborn, txhash, hspent⟩
    obtain ⟨info, hinfo, rfl, hcov, -⟩ := (hX.bornBy_iff hG hcaught hh).mp hborn
    exact ⟨info, ⟨hinfo, hcov, txhash, (hX.spentAt_iff hG hcaught hh hinfo).mp hspent⟩, rfl⟩

end Caught

end CoinIndex.Follows

/-! ## The calls -/

section Calls

variable {Unsealed ι : Type} {X : CoinIndex ι} {R : CoinRules} {genesis : GenesisConfig}
  {server : Nat → Shared Unsealed} {index : Nat → ι} {height tick : Nat} {covhash : Address}

theorem awaitIndexer_spec (hX : X.Follows R genesis server index) :
    ∀ {fuel tick next : Nat}, awaitIndexer X index height fuel tick = some next →
      tick ≤ next ∧ height ≤ X.maxHeight (index next) := by
  intro fuel
  induction fuel with
  | zero =>
    intro tick next h
    cases h
  | succ fuel ih =>
    intro tick next h
    unfold awaitIndexer at h
    split at h
    · obtain ⟨hle, hheight⟩ := ih h
      exact ⟨Nat.le_of_succ_le hle, hheight⟩
    · next hreached =>
      cases h
      exact ⟨Nat.le_succ tick, Nat.le_trans (Nat.le_of_not_lt hreached) (hX.maxHeight_le tick)⟩

theorem awaitIndexer_returns : ∀ {k fuel tick : Nat}, k < fuel →
    height ≤ X.maxHeight (index (tick + k)) →
      ∃ next, awaitIndexer X index height fuel tick = some next := by
  intro k
  induction k with
  | zero =>
    intro fuel tick hfuel hreached
    obtain ⟨fuel, rfl⟩ := Nat.exists_eq_add_of_le' hfuel
    refine ⟨tick + 1, ?_⟩
    unfold awaitIndexer
    exact if_neg (Nat.not_lt.mpr hreached)
  | succ k ih =>
    intro fuel tick hfuel hreached
    obtain ⟨fuel, rfl⟩ := Nat.exists_eq_add_of_le' (Nat.one_le_of_lt hfuel)
    unfold awaitIndexer
    split
    · apply ih (Nat.lt_of_succ_lt_succ hfuel)
      rwa [Nat.add_right_comm]
    · exact ⟨tick + 1, rfl⟩

/-- The indexer reaches the highest stored height of every moment. -/
def CatchesUp (X : CoinIndex ι) (server : Nat → Shared Unsealed) (index : Nat → ι) : Prop :=
  ∀ tick, ∃ k, (server tick).db.highestHeight ≤ X.maxHeight (index (tick + 1 + k))

theorem getIndexer_spec (hX : X.Follows R genesis server index) {fuel : Nat}
    {reply : Option (Nat → ι) × Nat} (h : getIndexer X server (some index) fuel tick = some reply) :
    ∃ next, reply = (some index, next) ∧ tick ≤ next ∧
      (server tick).db.highestHeight ≤ X.maxHeight (index next) := by
  obtain ⟨next, hawait, rfl⟩ := Option.map_eq_some_iff.mp h
  obtain ⟨hle, hreached⟩ := awaitIndexer_spec hX hawait
  exact ⟨next, rfl, Nat.le_of_succ_le hle, hreached⟩

theorem getIndexer_returns (hup : CatchesUp X server index) (tick : Nat) :
    ∃ k, ∀ fuel, k < fuel → ∃ next,
      getIndexer X server (some index) fuel tick = some (some index, next) := by
  obtain ⟨k, hk⟩ := hup tick
  refine ⟨k, fun fuel hfuel => ?_⟩
  obtain ⟨next, hnext⟩ := awaitIndexer_returns hfuel hk
  exact ⟨next, Option.map_eq_some_iff.mpr ⟨next, hnext, rfl⟩⟩

/-- What `get_some_coins` replies: one query, once the indexer has reached the highest height. -/
theorem getSomeCoins_spec (hX : X.Follows R genesis server index) {fuel : Nat}
    {reply : Option (List CoinID) × Nat}
    (h : getSomeCoins X server (some index) height covhash fuel tick = some reply) :
    ∃ asked, tick ≤ asked ∧ (server tick).db.highestHeight ≤ X.maxHeight (index asked) ∧
      reply.1 = some ((X.queryCoins (index asked) [.covhash covhash, .unspentBy height]).map
        CoinInfo.coinId) := by
  obtain ⟨_, hget, rfl⟩ := Option.map_eq_some_iff.mp h
  obtain ⟨next, rfl, hle, hreached⟩ := getIndexer_spec hX hget
  exact ⟨next, hle, hreached, rfl⟩

/-- What `get_coin_changes` replies for a stored height: two queries, one after the other. -/
theorem getCoinChanges_spec (hX : X.Follows R genesis server index) {blk : Block}
    (hblk : (server tick).getBlock height = some blk) {fuel : Nat}
    {reply : Except CoinPanic (Option (List CoinChange)) × Nat}
    (h : getCoinChanges X server (some index) height covhash fuel tick = some reply) :
    ∃ asked, tick + 1 ≤ asked ∧ (server (tick + 1)).db.highestHeight ≤ X.maxHeight (index asked) ∧
      reply.1 = changeList
        (X.queryCoins (index (asked + 1)) [.covhash covhash, .createHeightRange height height])
        (X.queryCoins (index asked) [.covhash covhash, .spendHeightRange height height]) := by
  unfold getCoinChanges at h
  rw [hblk] at h
  obtain ⟨_, hget, rfl⟩ := Option.map_eq_some_iff.mp h
  obtain ⟨next, rfl, hle, hreached⟩ := getIndexer_spec hX hget
  exact ⟨next, hle, hreached, rfl⟩

/-- With an indexer that catches up a list call returns. -/
theorem getSomeCoins_returns (hup : CatchesUp X server index) (height tick : Nat)
    (covhash : Address) : ∃ k, ∀ fuel, k < fuel → ∃ reply,
      getSomeCoins X server (some index) height covhash fuel tick = some reply := by
  obtain ⟨k, hk⟩ := getIndexer_returns hup tick
  refine ⟨k, fun fuel hfuel => ?_⟩
  obtain ⟨next, hnext⟩ := hk fuel hfuel
  exact ⟨_, Option.map_eq_some_iff.mpr ⟨_, hnext, rfl⟩⟩

theorem getCoinChanges_returns (hup : CatchesUp X server index) (height tick : Nat)
    (covhash : Address) : ∃ k, ∀ fuel, k < fuel → ∃ reply,
      getCoinChanges X server (some index) height covhash fuel tick = some reply := by
  obtain ⟨k, hk⟩ := getIndexer_returns hup (tick + 1)
  refine ⟨k, fun fuel hfuel => ?_⟩
  obtain ⟨next, hnext⟩ := hk fuel hfuel
  unfold getCoinChanges
  split
  · exact ⟨_, rfl⟩
  · exact ⟨_, Option.map_eq_some_iff.mpr ⟨_, hnext, rfl⟩⟩

end Calls

/-! ## Changes and lists -/

/-- The changes turn the one list into the other, and each `Delete` finds its coin. -/
def ChangesBetween (before after : Option (List CoinID))
    (reply : Except CoinPanic (Option (List CoinChange))) : Prop :=
  ∃ coins coins' changes, before = some coins ∧ after = some coins' ∧ reply = .ok (some changes) ∧
    applyChanges coins.toFinset changes = some coins'.toFinset

/-- Two coin lists of successive heights and the two queries for the changes between them, asked of
an indexer at four moments past those heights. -/
theorem changesBetween_queries {Unsealed ι : Type} {X : CoinIndex ι} {R : CoinRules}
    {genesis : GenesisConfig} {server : Nat → Shared Unsealed} {index : Nat → ι}
    (hX : X.Follows R genesis server index) {db : Tables}
    (hle : ∀ {k : Nat} {blk : Block}, db.block? k = some blk → k ≤ db.highestHeight)
    (hG : ∀ tick, db.IsPrefix (server tick).db) {h : Nat} (hh : h + 1 ≤ db.highestHeight)
    (covhash : Address) {a b c d : Nat}
    (ha : db.highestHeight ≤ X.maxHeight (index a)) (hb : db.highestHeight ≤ X.maxHeight (index b))
    (hc : db.highestHeight ≤ X.maxHeight (index c)) (hd : db.highestHeight ≤ X.maxHeight (index d)) :
    ChangesBetween
      (some ((X.queryCoins (index a) [.covhash covhash, .unspentBy h]).map CoinInfo.coinId))
      (some ((X.queryCoins (index b) [.covhash covhash, .unspentBy (h + 1)]).map CoinInfo.coinId))
      (changeList
        (X.queryCoins (index d) [.covhash covhash, .createHeightRange (h + 1) (h + 1)])
        (X.queryCoins (index c) [.covhash covhash, .spendHeightRange (h + 1) (h + 1)])) := by
  have hspent : ∀ info ∈ X.queryCoins (index c)
      [.covhash covhash, .spendHeightRange (h + 1) (h + 1)], info.spendInfo ≠ none := by
    intro info hinfo
    have hholds := (hX.mem_query.mp hinfo).2 (.spendHeightRange (h + 1) (h + 1)) (by simp)
    obtain ⟨txhash, hspend⟩ := CoinCondition.holds_spendHeightRange_self.mp hholds
    rw [hspend]
    exact Option.some_ne_none _
  have hlawful : (R.lifetimes genesis db covhash).Lawful := hX.lawful (hG a) ha hle
  obtain ⟨changes, hchanges, happly⟩ := applyChanges_exact hlawful
    (fun coin => hX.mem_unspentBy (hG a) ha (Nat.le_of_succ_le hh))
    (fun coin => hX.mem_unspentBy (hG b) hb hh) (fun coin => hX.mem_createdAt (hG d) hd hh)
    (fun coin => hX.mem_spentAt (hG c) hc hh) hspent (hX.nodup_query _)
  exact ⟨_, _, changes, rfl, rfl, hchanges, happly⟩

namespace Ledger

/-- The first block and its transaction. -/
def stakeBlock : Block := firstStake ⟨4, 1, 5, 7⟩

def stakeTx : Transaction := staking ⟨4, 1, 5, 7⟩

def stakeServer : Nat → Procs.Config Nat (Shared Ledger.Unsealed) (Call Ledger.Sealed) :=
  fun _ => committed stakeBlock [1, 2, 3]

/-- Outputs are coins, and the first transaction of a block spends the genesis coin. -/
def coinRules : CoinRules where
  genesisCoins _ := [(⟨0, 0⟩, 0)]
  created blk := blk.transactions.flatMap fun tx =>
    tx.outputs.zipIdx.map fun out => (⟨hashNosigs tx, UInt8.ofNat out.2⟩, out.1.covhash)
  spent blk := (blk.transactions.take 1).map fun tx => (⟨0, 0⟩, hashNosigs tx)

/-- An indexer that is its height and its records. -/
def coinIndex : CoinIndex (Nat × List CoinInfo) where
  maxHeight := Prod.fst
  queryCoins x conditions := x.2.filter fun coin => conditions.all fun c => c.holds coin

/-- The record of the coin that the first block creates. -/
def newCoin : CoinInfo := ⟨hashNosigs stakeTx, 0, 1, 0, none⟩

/-- The record of the genesis coin, before and after the first block. -/
def genesisCoin (spendInfo : Option CoinSpendInfo) : CoinInfo := ⟨0, 0, 0, 0, spendInfo⟩

/-- An indexer that has not seen the first block at first. -/
def indexing : Nat → Nat × List CoinInfo
  | 0 => (0, [genesisCoin none])
  | _ + 1 => (1, [genesisCoin (some ⟨hashNosigs stakeTx, 1⟩), newCoin])

theorem coinIndex_records (x : Nat × List CoinInfo) : coinIndex.records x = x.2 :=
  List.filter_true x.2

theorem stakeServer_block (tick : Nat) :
    (stakeServer tick).shared.db.block? 0 = none ∧
      (stakeServer tick).shared.db.block? 1 = some stakeBlock ∧
      coinRules.created stakeBlock = [(⟨hashNosigs stakeTx, 0⟩, 0)] ∧
      coinRules.spent stakeBlock = [(⟨0, 0⟩, hashNosigs stakeTx)] := by
  unfold stakeServer
  decide +kernel

theorem indexing_created {tick h : Nat} (hle : h ≤ (indexing tick).1) (coin : CoinID)
    (covhash : Address) :
    coinRules.CreatedAt threeStakers (stakeServer tick).shared.db coin covhash h ↔
      ∃ info ∈ (indexing tick).2, info.coinId = coin ∧ info.covhash = covhash ∧
        info.createHeight = h := by
  obtain ⟨-, hblk, hcreated, -⟩ := stakeServer_block tick
  cases tick with
  | zero =>
    obtain rfl : h = 0 := Nat.le_zero.mp hle
    simp [CoinRules.CreatedAt, coinRules, indexing, genesisCoin, CoinInfo.coinId,
      eq_comm (a := coin), eq_comm (a := covhash)]
  | succ tick =>
    rcases Nat.le_one_iff_eq_zero_or_eq_one.mp hle with rfl | rfl
    · simp [CoinRules.CreatedAt, coinRules, indexing, genesisCoin, newCoin, CoinInfo.coinId,
        eq_comm (a := coin), eq_comm (a := covhash)]
    · simp [CoinRules.CreatedAt, hblk, hcreated, indexing, genesisCoin, newCoin, CoinInfo.coinId,
        eq_comm (a := coin), eq_comm (a := covhash)]

theorem indexing_spent {tick h : Nat} (hle : h ≤ (indexing tick).1) {info : CoinInfo}
    (hinfo : info ∈ (indexing tick).2) (txhash : TxHash) :
    coinRules.SpentAt (stakeServer tick).shared.db info.coinId txhash h ↔
      info.spendInfo = some ⟨txhash, h⟩ := by
  obtain ⟨hnone, hblk, -, hspent⟩ := stakeServer_block tick
  cases tick with
  | zero =>
    obtain rfl : h = 0 := Nat.le_zero.mp hle
    obtain rfl : info = genesisCoin none := List.mem_singleton.mp hinfo
    simp [CoinRules.SpentAt, hnone, genesisCoin]
  | succ tick =>
    have hinfos : info = genesisCoin (some ⟨hashNosigs stakeTx, 1⟩) ∨ info = newCoin := by
      simpa [indexing] using hinfo
    have hne : newCoin.coinId ≠ ⟨0, 0⟩ := by decide
    rcases Nat.le_one_iff_eq_zero_or_eq_one.mp hle with rfl | rfl
    · rcases hinfos with rfl | rfl
      · simp [CoinRules.SpentAt, hnone, genesisCoin]
      · simp [CoinRules.SpentAt, hnone, newCoin]
    · rcases hinfos with rfl | rfl
      · simp [CoinRules.SpentAt, hblk, hspent, genesisCoin, CoinInfo.coinId, eq_comm (a := txhash)]
      · have hunspent : newCoin.spendInfo = none := rfl
        simp only [CoinRules.SpentAt, hblk, hspent, Option.some.injEq, exists_eq_left',
          List.mem_singleton, Prod.mk.injEq, hne, false_and, hunspent, reduceCtorEq]

theorem indexing_created_le {tick : Nat} {info : CoinInfo} (hinfo : info ∈ (indexing tick).2)
    {spend : CoinSpendInfo} (hspend : info.spendInfo = some spend) :
    info.createHeight ≤ spend.spendHeight := by
  cases tick with
  | zero =>
    obtain rfl : info = genesisCoin none := List.mem_singleton.mp hinfo
    cases hspend
  | succ tick =>
    rcases List.mem_cons.mp hinfo with rfl | hinfo
    · exact Nat.zero_le _
    · obtain rfl : info = newCoin := List.mem_singleton.mp hinfo
      cases hspend

theorem indexing_follows :
    coinIndex.Follows coinRules threeStakers (fun tick => (stakeServer tick).shared) indexing where
  maxHeight_le tick := by
    cases tick with
    | zero => exact Nat.zero_le 1
    | succ tick => exact Nat.le_refl 1
  query tick conditions := by
    rw [coinIndex_records]
    exact List.Perm.refl _
  nodup tick := by
    rw [coinIndex_records]
    cases tick with
    | zero => exact List.nodup_singleton _
    | succ tick =>
      show ([genesisCoin (some ⟨hashNosigs stakeTx, 1⟩), newCoin].map CoinInfo.coinId).Nodup
      decide
  created := by
    intro tick h hle coin covhash
    rw [coinIndex_records]
    exact indexing_created hle coin covhash
  spent := by
    intro tick h hle info hinfo txhash
    rw [coinIndex_records] at hinfo
    exact indexing_spent hle hinfo txhash
  created_le := by
    intro tick info spend hinfo hspend _
    rw [coinIndex_records] at hinfo
    exact indexing_created_le hinfo hspend

theorem stakeServer_serves : ledger.Serves threeStakers stakeServer where
  start := Melstf.storageAfter_reachable _ _ (by decide +kernel)
  next _ := Lts.Reaches.refl _

theorem indexing_catchesUp :
    CatchesUp coinIndex (fun tick => (stakeServer tick).shared) indexing := by
  intro tick
  refine ⟨0, ?_⟩
  have hH : (stakeServer tick).shared.db.highestHeight = 1 := by
    unfold stakeServer
    decide +kernel
  rw [hH]
  exact Nat.le_refl 1

end Ledger

namespace Melstf

variable {Sealed Unsealed ι : Type} {M : Melstf Sealed Unsealed} {genesis : GenesisConfig}
  {X : CoinIndex ι} {R : CoinRules} {index : Nat → ι}
  {server : Nat → Procs.Config Nat (Shared Unsealed) (Call Sealed)}

/-- A list call that returns has asked the indexer past every height stored at the start. -/
theorem getSomeCoins_caught (hB : M.BuildsStates) (hserver : M.Serves genesis server)
    (hX : X.Follows R genesis (fun tick => (server tick).shared) index) {height fuel tick : Nat}
    {covhash : Address} {reply : Option (List CoinID) × Nat}
    (h : getSomeCoins X (fun tick => (server tick).shared) (some index) height covhash fuel tick =
      some reply) :
    ∃ asked, (server 0).shared.db.highestHeight ≤ X.maxHeight (index asked) ∧
      reply.1 = some ((X.queryCoins (index asked) [.covhash covhash, .unspentBy height]).map
        CoinInfo.coinId) := by
  obtain ⟨asked, -, hreached, hreply⟩ := getSomeCoins_spec hX h
  exact ⟨asked, Nat.le_trans (hserver.isPrefix hB tick).le hreached, hreply⟩

theorem getCoinChanges_caught (hB : M.BuildsStates) (hserver : M.Serves genesis server)
    (hX : X.Follows R genesis (fun tick => (server tick).shared) index) {height fuel tick : Nat}
    (h1 : 1 ≤ height) (hstored : height ≤ (server 0).shared.db.highestHeight) {covhash : Address}
    {reply : Except CoinPanic (Option (List CoinChange)) × Nat}
    (h : getCoinChanges X (fun tick => (server tick).shared) (some index) height covhash fuel tick =
      some reply) :
    ∃ asked, (server 0).shared.db.highestHeight ≤ X.maxHeight (index asked) ∧
      reply.1 = changeList
        (X.queryCoins (index (asked + 1)) [.covhash covhash, .createHeightRange height height])
        (X.queryCoins (index asked) [.covhash covhash, .spendHeightRange height height]) := by
  have hwf := (hserver.sharedOk hB 0).chain.wellFormed hB
  obtain ⟨blk, hblk⟩ := hwf.block_isSome h1 hstored
  have hget : ((server tick).shared).getBlock height = some blk := by
    rw [(hserver.sharedOk hB tick).getBlock_eq, (hserver.isPrefix hB tick).block? hblk]
  obtain ⟨asked, -, hreached, hreply⟩ := getCoinChanges_spec hX hget h
  exact ⟨asked, Nat.le_trans (hserver.isPrefix hB (tick + 1)).le hreached, hreply⟩

/-- **A deletion tells the spend**: what `get_coin_changes` deletes at a height, `get_coin_spend`
reports as spent there, by the same transaction. -/
theorem coinSpend_of_delete (hB : M.BuildsStates) (hserver : M.Serves genesis server)
    (hX : X.Follows R genesis (fun tick => (server tick).shared) index) {h : Nat} (h1 : 1 ≤ h)
    (hstored : h ≤ (server 0).shared.db.highestHeight) {covhash : Address} {coin : CoinID}
    {txhash : TxHash} {changes : List CoinChange} {status : Option CoinSpendStatus}
    {fuel₁ fuel₂ a b a' b' : Nat}
    (hchanges : getCoinChanges X (fun tick => (server tick).shared) (some index) h covhash fuel₁ a =
      some (.ok (some changes), a'))
    (hdelete : CoinChange.delete coin txhash ∈ changes)
    (hstatus : getCoinSpend X (fun tick => (server tick).shared) (some index) coin fuel₂ b =
      some (status, b')) : status = some (.spent txhash h) := by
  have hG := hserver.isPrefix hB
  obtain ⟨asked₁, hasked₁, hreply⟩ := getCoinChanges_caught hB hserver hX h1 hstored hchanges
  obtain ⟨info, hinfo, spend, hspend, rfl, rfl⟩ := mem_changeList hreply.symm hdelete
  obtain ⟨hrecord, hholds⟩ := hX.mem_query.mp hinfo
  obtain ⟨t, hinfoSpend⟩ := CoinCondition.holds_spendHeightRange_self.mp
    (hholds (.spendHeightRange h h) (by simp))
  rw [hinfoSpend] at hspend
  cases hspend
  -- the coin and its spend, as the chain has them
  have hspent := (hX.spentAt_iff (hG asked₁) hasked₁ hstored hrecord).mpr hinfoSpend
  have hborn := (hX.bornBy_iff (hG asked₁) hasked₁ hstored).mpr ⟨info, hrecord, rfl, rfl,
    hX.created_le hrecord hinfoSpend (Nat.le_trans hstored hasked₁)⟩
  obtain ⟨_, hindexer, hreply⟩ := Option.map_eq_some_iff.mp hstatus
  obtain ⟨asked₂, rfl, -, hasked₂⟩ := getIndexer_spec hX hindexer
  have hasked₂ := Nat.le_trans (hG b).le hasked₂
  obtain ⟨info', hrecord', hid, -, -⟩ := (hX.bornBy_iff (hG asked₂) hasked₂ hstored).mp hborn
  rw [← hid] at hspent hreply
  have hspend' := (hX.spentAt_iff (hG asked₂) hasked₂ hstored hrecord').mp hspent
  cases hreply
  simp only [CoinInfo.coinId, hX.query_coinId hrecord', Option.map_some, hspend']

/-- **Changes and lists agree**: on a node whose indexer follows its chain, whenever
`get_some_coins` of a height and of the height before and `get_coin_changes` of the height are
called, the changes turn the one list into the other. All three return if the indexer catches up. -/
theorem coinChanges_exact (hB : M.BuildsStates) (hserver : M.Serves genesis server)
    (hX : X.Follows R genesis (fun tick => (server tick).shared) index) {h : Nat} (h1 : 1 ≤ h)
    (hstored : h ≤ (server 0).shared.db.highestHeight) (covhash : Address) (a b c : Nat) :
    (∀ fuel₁ fuel₂ fuel₃ before after reply,
      getSomeCoins X (fun tick => (server tick).shared) (some index) (h - 1) covhash fuel₁ a =
        some before →
      getSomeCoins X (fun tick => (server tick).shared) (some index) h covhash fuel₂ b =
        some after →
      getCoinChanges X (fun tick => (server tick).shared) (some index) h covhash fuel₃ c =
        some reply →
      ChangesBetween before.1 after.1 reply.1) ∧
    (CatchesUp X (fun tick => (server tick).shared) index → ∃ fuel before after reply,
      getSomeCoins X (fun tick => (server tick).shared) (some index) (h - 1) covhash fuel a =
        some before ∧
      getSomeCoins X (fun tick => (server tick).shared) (some index) h covhash fuel b =
        some after ∧
      getCoinChanges X (fun tick => (server tick).shared) (some index) h covhash fuel c =
        some reply) := by
  constructor
  · intro fuel₁ fuel₂ fuel₃ before after reply hbefore hafter hreply
    obtain ⟨asked₁, hasked₁, hbefore⟩ := getSomeCoins_caught hB hserver hX hbefore
    obtain ⟨asked₂, hasked₂, hafter⟩ := getSomeCoins_caught hB hserver hX hafter
    obtain ⟨asked₃, hasked₃, hreply⟩ := getCoinChanges_caught hB hserver hX h1 hstored hreply
    have hasked₃' := Nat.le_trans hasked₃ (hX.maxHeight_le asked₃)
    have hwf := (hserver.sharedOk hB 0).chain.wellFormed hB
    obtain ⟨h, rfl⟩ := Nat.exists_eq_add_of_le' h1
    rw [hbefore, hafter, hreply]
    exact changesBetween_queries hX (fun hb => (hwf.block_le hb).2) (hserver.isPrefix hB) hstored
      covhash hasked₁ hasked₂ hasked₃ hasked₃'
  · intro hup
    obtain ⟨k₁, hk₁⟩ := getSomeCoins_returns hup (h - 1) a covhash
    obtain ⟨k₂, hk₂⟩ := getSomeCoins_returns hup h b covhash
    obtain ⟨k₃, hk₃⟩ := getCoinChanges_returns hup h c covhash
    obtain ⟨before, hbefore⟩ := hk₁ (k₁ + k₂ + k₃ + 1) (by omega)
    obtain ⟨after, hafter⟩ := hk₂ (k₁ + k₂ + k₃ + 1) (by omega)
    obtain ⟨reply, hreply⟩ := hk₃ (k₁ + k₂ + k₃ + 1) (by omega)
    exact ⟨k₁ + k₂ + k₃ + 1, before, after, reply, hbefore, hafter, hreply⟩

/-- The first block spends the genesis coin and creates another. -/
theorem coinChanges_exact_firstStake :
    ChangesBetween (some [⟨0, 0⟩]) (some [⟨Ledger.hashNosigs Ledger.stakeTx, 0⟩])
      (.ok (some [.add ⟨Ledger.hashNosigs Ledger.stakeTx, 0⟩,
        .delete ⟨0, 0⟩ (Ledger.hashNosigs Ledger.stakeTx)])) ∧
    CatchesUp Ledger.coinIndex (fun tick => (Ledger.stakeServer tick).shared)
      Ledger.indexing := by
  have hexact := coinChanges_exact ledger_builds Ledger.stakeServer_serves Ledger.indexing_follows
    (Nat.le_refl 1) (by decide +kernel) 0 0 0 0
  refine ⟨?_, Ledger.indexing_catchesUp⟩
  exact hexact.1 3 3 3 (some [⟨0, 0⟩], 3) (some [⟨Ledger.hashNosigs Ledger.stakeTx, 0⟩], 3)
    (.ok (some [.add ⟨Ledger.hashNosigs Ledger.stakeTx, 0⟩,
      .delete ⟨0, 0⟩ (Ledger.hashNosigs Ledger.stakeTx)]), 5)
    (by decide +kernel) (by decide +kernel) (by decide +kernel)

end Melstf

end Melnode
