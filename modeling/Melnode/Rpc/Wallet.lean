import Melnode.Rpc.Coins

/-!
# A wallet that follows the chain

A wallet takes `get_some_coins` of one height and then applies `get_coin_changes` of one height after
the other. While the node and its indexer move on, it has the coins of each height (`wallet_follows`);
and a coin is gone from it exactly when `get_coin_spend` tells a spend up to there
(`wallet_spends`).
-/

namespace Melnode

open Lib

/-- What a wallet makes of a reply of `get_coin_changes`. -/
def applyReply (coins : Finset CoinID) (reply : Except CoinPanic (Option (List CoinChange))) :
    Option (Finset CoinID) :=
  match reply with
  | .ok (some changes) => applyChanges coins changes
  | _ => none

/-- A wallet applies the replies for some heights, in order. -/
def followChanges (coins : Finset CoinID)
    (replies : List (Except CoinPanic (Option (List CoinChange)))) : Option (Finset CoinID) :=
  replies.foldlM applyReply coins

/-- What `get_coin_spend` tells of a record. -/
def CoinInfo.status (info : CoinInfo) : CoinSpendStatus :=
  match info.spendInfo with
  | some spend => .spent spend.spendTxhash spend.spendHeight
  | none => .notSpent

theorem CoinInfo.status_eq_spent {info : CoinInfo} {txhash : TxHash} {h : Nat} :
    info.status = .spent txhash h ↔ info.spendInfo = some ⟨txhash, h⟩ := by
  unfold CoinInfo.status
  constructor
  · intro heq
    split at heq
    · next spend hspend =>
      cases heq
      exact hspend
    · cases heq
  · intro hspend
    rw [hspend]

namespace Melstf

variable {Sealed Unsealed ι : Type} {M : Melstf Sealed Unsealed} {genesis : GenesisConfig}
  {X : CoinIndex ι} {R : CoinRules} {index : Nat → ι}
  {server : Nat → Procs.Config Nat (Shared Unsealed) (Call Sealed)} {covhash : Address}

/-- The coins of a height, as the indexer lists them at a moment. -/
def listedAt (X : CoinIndex ι) (index : Nat → ι) (covhash : Address) (asked h : Nat) :
    Finset CoinID :=
  ((X.queryCoins (index asked) [.covhash covhash, .unspentBy h]).map CoinInfo.coinId).toFinset

section Wallet

variable (hB : M.BuildsStates) (hserver : M.Serves genesis server)
  (hX : X.Follows R genesis (fun tick => (server tick).shared) index)
include hB hserver hX

/-- Past the stored heights it does not matter when the indexer is asked. -/
theorem listedAt_eq {h a b : Nat} (hh : h ≤ (server 0).shared.db.highestHeight)
    (ha : (server 0).shared.db.highestHeight ≤ X.maxHeight (index a))
    (hb : (server 0).shared.db.highestHeight ≤ X.maxHeight (index b)) :
    listedAt X index covhash a h = listedAt X index covhash b h := by
  ext coin
  unfold listedAt
  rw [List.mem_toFinset, List.mem_toFinset, hX.mem_unspentBy (hserver.isPrefix hB a) ha hh,
    hX.mem_unspentBy (hserver.isPrefix hB b) hb hh]

/-- The reply for one height turns the coins of the height before into those of the height. -/
theorem applyReply_listedAt {h asked fuel tick : Nat}
    (hh : h + 1 ≤ (server 0).shared.db.highestHeight)
    (hasked : (server 0).shared.db.highestHeight ≤ X.maxHeight (index asked))
    {reply : Except CoinPanic (Option (List CoinChange)) × Nat}
    (hreply : getCoinChanges X (fun tick => (server tick).shared) (some index) (h + 1) covhash fuel
      tick = some reply) :
    applyReply (listedAt X index covhash asked h) reply.1 =
      some (listedAt X index covhash asked (h + 1)) := by
  have hwf := (hserver.sharedOk hB 0).chain.wellFormed hB
  obtain ⟨asked', hasked', heq⟩ :=
    getCoinChanges_caught hB hserver hX (Nat.le_add_left 1 h) hh hreply
  obtain ⟨coins, coins', changes, hcoins, hcoins', hchanges, happly⟩ := changesBetween_queries hX
    (fun hb => (hwf.block_le hb).2) (hserver.isPrefix hB) hh covhash hasked hasked hasked'
    (Nat.le_trans hasked' (hX.maxHeight_le asked'))
  cases hcoins
  cases hcoins'
  rw [heq, hchanges]
  exact happly

/-- **A wallet follows the chain.** Let `a ≤ b` be heights that the node has stored. The replies of
`get_coin_changes` for the heights from `a + 1` to `b`, each asked for at any moment while the node
and its indexer move on, turn what `get_some_coins` lists for `a` into what it lists for `b`, whenever
it is asked for these. -/
theorem wallet_follows {a b : Nat} (hab : a ≤ b)
    (hstored : b ≤ (server 0).shared.db.highestHeight) {fuel₁ fuel₂ tick₁ tick₂ : Nat}
    {before after : Option (List CoinID) × Nat}
    (hbefore : getSomeCoins X (fun tick => (server tick).shared) (some index) a covhash fuel₁ tick₁ =
      some before)
    (hafter : getSomeCoins X (fun tick => (server tick).shared) (some index) b covhash fuel₂ tick₂ =
      some after)
    {fuel tick : Nat → Nat} {reply : Nat → Except CoinPanic (Option (List CoinChange)) × Nat}
    (hreplies : ∀ h, a < h → h ≤ b → getCoinChanges X (fun tick => (server tick).shared) (some index)
      h covhash (fuel h) (tick h) = some (reply h)) :
    ∃ coins coins', before.1 = some coins ∧ after.1 = some coins' ∧
      followChanges coins.toFinset ((List.range' (a + 1) (b - a)).map fun h => (reply h).1) =
        some coins'.toFinset := by
  obtain ⟨asked₁, hasked₁, hbefore⟩ := getSomeCoins_caught hB hserver hX hbefore
  obtain ⟨asked₂, hasked₂, hafter⟩ := getSomeCoins_caught hB hserver hX hafter
  refine ⟨_, _, hbefore, hafter, ?_⟩
  -- the coins of each height, as the first query would list them
  have hfollow : ∀ d, a + d ≤ b →
      followChanges (listedAt X index covhash asked₁ a)
        ((List.range' (a + 1) d).map fun h => (reply h).1) =
          some (listedAt X index covhash asked₁ (a + d)) := by
    intro d
    induction d with
    | zero => exact fun _ => rfl
    | succ d ih =>
      intro hd
      have hone := applyReply_listedAt hB hserver hX (h := a + d) (by omega) hasked₁
        (hreplies (a + d + 1) (by omega) (by omega))
      unfold followChanges at ih ⊢
      rw [List.range'_1_concat, List.map_append, List.foldlM_append, ih (by omega),
        Nat.add_right_comm]
      simp only [Option.bind_eq_bind, Option.bind_some, List.map_cons, List.map_nil,
        List.foldlM_cons, hone, List.foldlM_nil]
      rfl
  have hlast := hfollow (b - a) (by omega)
  rw [Nat.add_sub_of_le hab, listedAt_eq hB hserver hX hstored hasked₁ hasked₂] at hlast
  exact hlast

/-- **Gone is spent.** A coin that `get_some_coins` lists for a stored height `a` is missing from its
list for a stored height `b ≥ a` exactly if `get_coin_spend` tells a spend above `a` and up to `b`,
whenever the three are asked for. -/
theorem wallet_spends {a b : Nat} (hab : a ≤ b)
    (hstored : b ≤ (server 0).shared.db.highestHeight) {fuel₁ fuel₂ fuel₃ tick₁ tick₂ tick₃ : Nat}
    {before after : List CoinID} {coin : CoinID} {status : Option CoinSpendStatus}
    {tick₁' tick₂' tick₃' : Nat}
    (hbefore : getSomeCoins X (fun tick => (server tick).shared) (some index) a covhash fuel₁ tick₁ =
      some (some before, tick₁'))
    (hafter : getSomeCoins X (fun tick => (server tick).shared) (some index) b covhash fuel₂ tick₂ =
      some (some after, tick₂'))
    (hstatus : getCoinSpend X (fun tick => (server tick).shared) (some index) coin fuel₃ tick₃ =
      some (status, tick₃'))
    (hcoin : coin ∈ before) :
    coin ∉ after ↔ ∃ txhash k, status = some (.spent txhash k) ∧ a < k ∧ k ≤ b := by
  have hG := hserver.isPrefix hB
  obtain ⟨asked₁, hasked₁, hbefore⟩ := getSomeCoins_caught hB hserver hX hbefore
  obtain ⟨asked₂, hasked₂, hafter⟩ := getSomeCoins_caught hB hserver hX hafter
  obtain rfl := Option.some.inj hbefore
  obtain rfl := Option.some.inj hafter
  have halive := (hX.mem_unspentBy (hG asked₁) hasked₁ (Nat.le_trans hab hstored)).mp hcoin
  rw [hX.mem_unspentBy (hG asked₂) hasked₂ hstored, Lifetimes.not_alive_iff hab halive]
  -- the record that the status is read from
  obtain ⟨_, hindexer, hreply⟩ := Option.map_eq_some_iff.mp hstatus
  obtain ⟨asked₃, rfl, -, hasked₃⟩ := getIndexer_spec hX hindexer
  have hasked₃ := Nat.le_trans (hG tick₃).le hasked₃
  obtain ⟨info, hinfo, rfl, -, -⟩ :=
    (hX.bornBy_iff (hG asked₃) hasked₃ (Nat.le_trans hab hstored)).mp halive.1
  have htold : status = some info.status := by
    cases hreply
    simp only [CoinInfo.coinId, hX.query_coinId hinfo, Option.map_some]
    rfl
  have hspent : ∀ {k : Nat} {txhash : TxHash}, k ≤ b →
      (R.SpentAt (server 0).shared.db info.coinId txhash k ↔ info.spendInfo = some ⟨txhash, k⟩) :=
    fun hk => hX.spentAt_iff (hG asked₃) hasked₃ (Nat.le_trans hk hstored) hinfo
  constructor
  · rintro ⟨k, hak, hkb, txhash, hspend⟩
    rw [htold, CoinInfo.status_eq_spent.mpr ((hspent hkb).mp hspend)]
    exact ⟨txhash, k, rfl, hak, hkb⟩
  · rintro ⟨txhash, k, heq, hak, hkb⟩
    rw [htold] at heq
    exact ⟨k, hak, hkb, txhash,
      (hspent hkb).mpr (CoinInfo.status_eq_spent.mp (Option.some.inj heq))⟩

end Wallet

end Melstf

/-! ## The first stake -/

namespace Ledger

/-- The calls for the genesis coin's covenant, on the node that has stored the first block. -/
def coinsOf (h : Nat) : Option (Option (List CoinID) × Nat) :=
  getSomeCoins coinIndex (fun tick => (stakeServer tick).shared) (some indexing) h 0 3 0

def changesOf (h : Nat) : Option (Except CoinPanic (Option (List CoinChange)) × Nat) :=
  getCoinChanges coinIndex (fun tick => (stakeServer tick).shared) (some indexing) h 0 3 0

def spendOf (coin : CoinID) : Option (Option CoinSpendStatus × Nat) :=
  getCoinSpend coinIndex (fun tick => (stakeServer tick).shared) (some indexing) coin 3 0

theorem stakeServer_stored : 1 ≤ (stakeServer 0).shared.db.highestHeight := by
  with_unfolding_all decide

theorem coinsOf_zero : coinsOf 0 = some (some [⟨0, 0⟩], 3) := by
  with_unfolding_all decide

theorem coinsOf_one : coinsOf 1 = some (some [⟨hashNosigs stakeTx, 0⟩], 3) := by
  with_unfolding_all decide

end Ledger

namespace Melstf

theorem wallet_follows_firstStake :
    ∃ changes, Ledger.changesOf 1 = some (.ok (some changes), 5) ∧
      followChanges {⟨0, 0⟩} [.ok (some changes)] = some {⟨Ledger.hashNosigs Ledger.stakeTx, 0⟩} := by
  have hchanges : Ledger.changesOf 1 = some (.ok (some [.add ⟨Ledger.hashNosigs Ledger.stakeTx, 0⟩,
      .delete ⟨0, 0⟩ (Ledger.hashNosigs Ledger.stakeTx)]), 5) := by
    with_unfolding_all decide
  have hreplies : ∀ h, 0 < h → h ≤ 1 →
      getCoinChanges Ledger.coinIndex (fun tick => (Ledger.stakeServer tick).shared)
        (some Ledger.indexing) h 0 3 0 =
          some (.ok (some [.add ⟨Ledger.hashNosigs Ledger.stakeTx, 0⟩,
            .delete ⟨0, 0⟩ (Ledger.hashNosigs Ledger.stakeTx)]), 5) := by
    intro h hpos hle
    obtain rfl : h = 1 := by omega
    exact hchanges
  obtain ⟨coins, coins', hbefore, hafter, hfollow⟩ := wallet_follows ledger_builds
    Ledger.stakeServer_serves Ledger.indexing_follows (Nat.zero_le 1) Ledger.stakeServer_stored Ledger.coinsOf_zero
    Ledger.coinsOf_one hreplies
  cases hbefore
  cases hafter
  exact ⟨_, hchanges, hfollow⟩

theorem wallet_spends_firstStake :
    ∃ txhash k, (Ledger.spendOf ⟨0, 0⟩).bind Prod.fst = some (.spent txhash k) ∧ 0 < k ∧ k ≤ 1 := by
  cases hstatus : Ledger.spendOf ⟨0, 0⟩ with
  | none =>
    have hreplies : (Ledger.spendOf ⟨0, 0⟩).isSome := by with_unfolding_all decide
    rw [hstatus] at hreplies
    cases hreplies
  | some reply =>
    exact (wallet_spends ledger_builds Ledger.stakeServer_serves Ledger.indexing_follows
      (Nat.zero_le 1) Ledger.stakeServer_stored Ledger.coinsOf_zero Ledger.coinsOf_one hstatus (by decide)).mp
        (by decide)

end Melstf

end Melnode
