import Melnode.Staker.Round

/-!
# The weights given to streamlette

`vote_weights` sums the stakes of each key in a `u64`, where they are `u128`: an amount is cut to its
lower 64 bits and a sum that does not fit panics. So the weights are the stakes, and a quorum of
weights is a quorum of stake, exactly when no key has `2^64` or more staked (`voteWeights_exact_iff`).
-/

namespace Melnode

open Lib

/-- Where `vote_weights` panics. -/
inductive WeightsPanic where
  -- `stdcode::deserialize(..).unwrap()`
  | undecodable
  -- the overflow check of `+=`
  | overflow
  deriving DecidableEq, Repr

namespace Melstf

variable {Sealed Unsealed : Type} (M : Melstf Sealed Unsealed)

/-- The fold of `vote_weights` over the documents. -/
def weightsLoop (epoch : Nat) :
    List Bytes → Table Ed25519PK Nat → Except WeightsPanic (Table Ed25519PK Nat)
  | [], map => .ok map
  | bytes :: rest, map =>
    match M.decodeStakeDoc bytes with
    | none => .error .undecodable
    | some stakeDoc =>
      if stakeDoc.activeIn epoch then
        -- `+= stake_doc.syms_staked.0 as u64`
        let sum := map[stakeDoc.pubkey]?.getD 0 + stakeDoc.symsStaked % 2 ^ 64
        if sum < 2 ^ 64 then weightsLoop epoch rest (map.insert stakeDoc.pubkey sum)
        else .error .overflow
      else
        weightsLoop epoch rest map

/-- `vote_weights`. -/
def voteWeights (baseState : Sealed) : Except WeightsPanic (Table Ed25519PK Nat) :=
  M.weightsLoop (M.epoch (M.nextHeight baseState)) (M.preTip911 (M.rawStakes baseState)) ∅

/-- What the loop adds up for a key. -/
def truncatedVotes (docs : List StakeDoc) (epoch : Nat) (key : Ed25519PK) : Nat :=
  weigh (fun d => d.symsStaked % 2 ^ 64) (fun d => d.activeIn epoch && d.pubkey == key) docs

/-- The weights of some keys, summed. -/
def weightOf (map : Table Ed25519PK Nat) (keys : Ed25519PK → Bool) : Nat :=
  ((map.keys.filter keys).map fun key => map[key]?.getD 0).sum

/-! ## The loop -/

section Loop

variable {M} {epoch : Nat}

theorem truncatedVotes_cons (d : StakeDoc) (docs : List StakeDoc) (key : Ed25519PK) :
    truncatedVotes (d :: docs) epoch key =
      (if d.activeIn epoch && d.pubkey == key then d.symsStaked % 2 ^ 64 else 0) +
        truncatedVotes docs epoch key :=
  weigh_cons _ _ _ _

theorem getD_insert (map : Table Ed25519PK Nat) (pubkey key : Ed25519PK) (n : Nat) :
    (map.insert pubkey n)[key]?.getD 0 = if pubkey = key then n else map[key]?.getD 0 := by
  rw [Std.ExtTreeMap.getElem?_insert]
  by_cases h : pubkey = key
  · simp [h]
  · simp [h]

/-- **The loop** adds up the lower 64 bits of the amounts, if every sum fits. -/
theorem weightsLoop_ok_iff {docs : List StakeDoc} : ∀ {l : List Bytes} {map : Table Ed25519PK Nat},
    l.map M.decodeStakeDoc = docs.map some → (∀ key : Ed25519PK, map[key]?.getD 0 < 2 ^ 64) →
    ((∃ map', M.weightsLoop epoch l map = .ok map') ↔
      ∀ key : Ed25519PK, map[key]?.getD 0 + truncatedVotes docs epoch key < 2 ^ 64) ∧
    ∀ map', M.weightsLoop epoch l map = .ok map' → ∀ key : Ed25519PK,
      map'[key]?.getD 0 = map[key]?.getD 0 + truncatedVotes docs epoch key := by
  induction docs with
  | nil =>
    intro l map hl hmap
    obtain rfl : l = [] := by simpa using hl
    refine ⟨⟨fun _ => hmap, fun _ => ⟨map, rfl⟩⟩, ?_⟩
    rintro map' h key
    cases h
    rfl
  | cons d docs ih =>
    intro l map hl hmap
    obtain ⟨b, l, rfl, hb, hl⟩ := List.map_eq_cons_iff.mp hl
    simp only [weightsLoop, hb, truncatedVotes_cons]
    by_cases hact : d.activeIn epoch = true
    · simp only [hact, if_true, Bool.true_and, beq_iff_eq]
      by_cases hfits : map[d.pubkey]?.getD 0 + d.symsStaked % 2 ^ 64 < 2 ^ 64
      · simp only [hfits, if_true]
        have hsum : ∀ key : Ed25519PK, (map.insert d.pubkey
            (map[d.pubkey]?.getD 0 + d.symsStaked % 2 ^ 64))[key]?.getD 0 =
              map[key]?.getD 0 + if d.pubkey = key then d.symsStaked % 2 ^ 64 else 0 := by
          intro key
          rw [getD_insert]
          split
          · next heq => rw [heq]
          · rfl
        have hinsert : ∀ key : Ed25519PK, (map.insert d.pubkey
            (map[d.pubkey]?.getD 0 + d.symsStaked % 2 ^ 64))[key]?.getD 0 < 2 ^ 64 := by
          intro key
          rw [getD_insert]
          split
          · exact hfits
          · exact hmap key
        obtain ⟨hisOk, hok⟩ := ih hl hinsert
        simp only [hsum, Nat.add_assoc] at hisOk hok
        exact ⟨hisOk, hok⟩
      · simp only [hfits, if_false]
        refine ⟨⟨?_, fun h => ?_⟩, ?_⟩
        · rintro ⟨map', ⟨⟩⟩
        · have hkey := h d.pubkey
          simp only [if_true] at hkey
          omega
        · rintro map' ⟨⟩
    · simp only [hact, Bool.false_eq_true, if_false, Bool.false_and, Nat.zero_add]
      exact ih hl hmap

end Loop

/-! ## Weights and stakes -/

section Exact

variable {M}

theorem truncatedVotes_le (docs : List StakeDoc) (epoch : Nat) (key : Ed25519PK) :
    truncatedVotes docs epoch key ≤ activeStake docs epoch (· == key) := by
  unfold truncatedVotes activeStake
  induction docs with
  | nil => exact Nat.le_refl 0
  | cons d docs ih =>
    rw [weigh_cons, weigh_cons]
    refine Nat.add_le_add ?_ ih
    split
    · exact Nat.mod_le _ _
    · exact Nat.le_refl 0

/-- Where a key has less than `2^64` staked, nothing of it is cut off. -/
theorem truncatedVotes_eq {docs : List StakeDoc} {epoch : Nat} {key : Ed25519PK}
    (h : activeStake docs epoch (· == key) < 2 ^ 64) :
    truncatedVotes docs epoch key = activeStake docs epoch (· == key) := by
  unfold truncatedVotes activeStake at *
  induction docs with
  | nil => rfl
  | cons d docs ih =>
    rw [weigh_cons] at h
    rw [weigh_cons, weigh_cons, ih (Nat.lt_of_le_of_lt (Nat.le_add_left _ _) h)]
    congr 1
    split
    · next hd =>
      rw [if_pos hd] at h
      exact Nat.mod_eq_of_lt (Nat.lt_of_le_of_lt (Nat.le_add_right _ _) h)
    · rfl

/-- Weights that are the stakes add up to the stake of the keys. -/
theorem weightOf_eq {stakes : StakeSet} {epoch : Nat} {map : Table Ed25519PK Nat}
    (h : ∀ key : Ed25519PK, map[key]?.getD 0 = stakes.votes epoch key) (keys : Ed25519PK → Bool) :
    weightOf map keys = activeStake stakes.docs epoch keys := by
  have hnodup : (map.keys.filter keys).Nodup := Std.ExtTreeMap.nodup_keys.filter _
  have hsum : weightOf map keys =
      activeStake stakes.docs epoch fun pk => (map.keys.filter keys).contains pk := by
    unfold weightOf
    simp only [h]
    exact sum_weigh_keys StakeDoc.symsStaked (fun d : StakeDoc => d.activeIn epoch) StakeDoc.pubkey
      stakes.docs hnodup
  rw [hsum]
  apply Nat.le_antisymm
  · apply activeStake_mono
    intro pk hpk
    exact (List.mem_filter.mp (List.contains_iff_mem.mp hpk)).2
  · apply weigh_mono_pos
    intro d hd hcounts hpos
    obtain ⟨hactive, hkeys⟩ := Bool.and_eq_true_iff.mp hcounts
    refine Bool.and_eq_true_iff.mpr ⟨hactive, List.contains_iff_mem.mpr ?_⟩
    refine List.mem_filter.mpr ⟨?_, hkeys⟩
    -- a key with some stake has an entry
    have hvotes : 0 < stakes.votes epoch d.pubkey := by
      refine Nat.lt_of_lt_of_le hpos (le_weigh _ hd ?_)
      exact Bool.and_eq_true_iff.mpr ⟨hactive, beq_self_eq_true _⟩
    rw [← h] at hvotes
    rw [Std.ExtTreeMap.mem_keys, Std.ExtTreeMap.mem_iff_isSome_getElem?]
    cases hentry : map[d.pubkey]? with
    | none =>
      rw [hentry] at hvotes
      cases hvotes
    | some n => rfl

/-- What the whole fold adds up for a key. -/
theorem truncatedVotes_iterDocs (hM : M.EnumeratesStakes) (stakes : StakeSet) (epoch : Nat)
    (key : Ed25519PK) :
    truncatedVotes (M.iterDocs stakes) epoch key = truncatedVotes stakes.docs epoch key :=
  weigh_perm _ _ (hM.iterDocs_perm stakes)

/-- `vote_weights` in closed form. -/
theorem voteWeights_spec (hM : M.EnumeratesStakes) (baseState : Sealed) :
    ((∃ map, M.voteWeights baseState = .ok map) ↔ ∀ key,
      truncatedVotes (M.rawStakes baseState).docs (M.epoch (M.nextHeight baseState)) key < 2 ^ 64) ∧
    ∀ map, M.voteWeights baseState = .ok map → ∀ key : Ed25519PK, map[key]?.getD 0 =
      truncatedVotes (M.rawStakes baseState).docs (M.epoch (M.nextHeight baseState)) key := by
  have hempty : ∀ key : Ed25519PK, (∅ : Table Ed25519PK Nat)[key]?.getD 0 = 0 := by simp
  have hbound : ∀ key : Ed25519PK, (∅ : Table Ed25519PK Nat)[key]?.getD 0 < 2 ^ 64 := by
    intro key
    rw [hempty]
    decide
  have hspec := @weightsLoop_ok_iff _ _ M (M.epoch (M.nextHeight baseState)) _ _ _
    (hM.map_decode (M.rawStakes baseState)) hbound
  simp only [hempty, Nat.zero_add, truncatedVotes_iterDocs hM] at hspec
  exact hspec

/-- **The consensus weights are the stake, exactly** when no key has `2^64` or more staked: then the
fold does not panic, every key has its stake active at the next height, and a set of keys is above two
thirds of the weights exactly when it is above two thirds of the stake that `apply_block` counts for
a block of that height. -/
theorem voteWeights_exact_iff (hM : M.EnumeratesStakes) (baseState : Sealed) :
    (∃ map, M.voteWeights baseState = .ok map ∧
      (∀ key : Ed25519PK, map[key]?.getD 0 =
        (M.rawStakes baseState).votes (M.epoch (M.nextHeight baseState)) key) ∧
      ∀ blk : Block, blk.header.height = M.nextHeight baseState → ∀ keys : Ed25519PK → Bool,
        (2 * weightOf map (fun _ => true) < 3 * weightOf map keys ↔
          2 * (M.rawStakes baseState).totalVotes (M.epoch blk.header.height) <
            3 * activeStake (M.rawStakes baseState).docs (M.epoch blk.header.height) keys)) ↔
    ∀ key, (M.rawStakes baseState).votes (M.epoch (M.nextHeight baseState)) key < 2 ^ 64 := by
  obtain ⟨hisOk, hok⟩ := voteWeights_spec hM baseState
  constructor
  · rintro ⟨map, hmap, hexact, -⟩ key
    rw [← hexact key, hok map hmap key]
    exact hisOk.mp ⟨map, hmap⟩ key
  · intro hfits
    obtain ⟨map, hmap⟩ := hisOk.mpr fun key =>
      Nat.lt_of_le_of_lt (truncatedVotes_le _ _ key) (hfits key)
    have hexact : ∀ key : Ed25519PK, map[key]?.getD 0 =
        (M.rawStakes baseState).votes (M.epoch (M.nextHeight baseState)) key :=
      fun key => (hok map hmap key).trans (truncatedVotes_eq (hfits key))
    refine ⟨map, hmap, hexact, fun blk hheight keys => ?_⟩
    rw [weightOf_eq hexact, weightOf_eq hexact, hheight]
    rfl

/-- Three keys with one sym each. -/
theorem voteWeights_exact_iff_threeStakers :
    let s := ledger.genesisState Ledger.threeStakers
    ∃ map, ledger.voteWeights s = .ok map ∧
      (∀ key : Ed25519PK, map[key]?.getD 0 =
        s.stakes.votes (ledger.epoch (ledger.nextHeight s)) key) ∧
      ∀ blk : Block, blk.header.height = ledger.nextHeight s → ∀ keys : Ed25519PK → Bool,
        (2 * weightOf map (fun _ => true) < 3 * weightOf map keys ↔
          2 * s.stakes.totalVotes (ledger.epoch blk.header.height) <
            3 * activeStake s.stakes.docs (ledger.epoch blk.header.height) keys) := by
  refine (voteWeights_exact_iff ledger_enumerates (ledger.genesisState Ledger.threeStakers)).mpr ?_
  intro key
  have htotal : (ledger.genesisState Ledger.threeStakers).stakes.totalVotes
      (ledger.epoch (ledger.nextHeight (ledger.genesisState Ledger.threeStakers))) < 2 ^ 64 := by
    decide +kernel
  exact Nat.lt_of_le_of_lt (activeStake_mono _ _ fun _ _ => rfl) htotal

end Exact

end Melstf

namespace Ledger

/-- A key with `2^64` staked. -/
def wideStaker : GenesisConfig := ⟨.custom 2, (∅ : StakeSet).addStake 1 ⟨1, 0, 5, 2 ^ 64⟩, []⟩

theorem docs_wideStaker : wideStaker.stakes.docs = [⟨1, 0, 5, 2 ^ 64⟩] := by
  unfold wideStaker StakeSet.docs StakeSet.addStake
  rw [Table.toList_insert_empty]
  rfl

end Ledger

namespace Melstf

/-- The key that holds all the stake has no weight. -/
theorem voteWeights_truncated :
    ∃ map, ledger.voteWeights (ledger.genesisState Ledger.wideStaker) = .ok map ∧
      map[(1 : Ed25519PK)]?.getD 0 = 0 ∧
      Ledger.wideStaker.stakes.votes (ledger.epoch
        (ledger.nextHeight (ledger.genesisState Ledger.wideStaker))) 1 = 2 ^ 64 := by
  have hspec := voteWeights_spec ledger_enumerates (ledger.genesisState Ledger.wideStaker)
  have hdocs : (ledger.rawStakes (ledger.genesisState Ledger.wideStaker)).docs =
      [⟨1, 0, 5, 2 ^ 64⟩] := Ledger.docs_wideStaker
  rw [hdocs] at hspec
  obtain ⟨hisOk, hok⟩ := hspec
  have hzero : ∀ key, truncatedVotes [⟨1, 0, 5, 2 ^ 64⟩] (ledger.epoch
      (ledger.nextHeight (ledger.genesisState Ledger.wideStaker))) key = 0 := by
    intro key
    rw [truncatedVotes_cons, Nat.mod_self, ite_self]
    rfl
  obtain ⟨map, hmap⟩ := hisOk.mpr fun key => by rw [hzero]; decide
  refine ⟨map, hmap, (hok map hmap 1).trans (hzero 1), ?_⟩
  unfold StakeSet.votes
  rw [Ledger.docs_wideStaker]
  decide

end Melstf

end Melnode
