import Melnode.Storage.Accepted

/-!
# Two storages of one genesis

Two storages run side by side and share nothing but the genesis and the signatures that exist. Their
chains agree by induction on the height: equal headers below fix the stakes both check the next
block against, two quorums of those stakes share more than a third of them, and that is more than
the keys that signed twice have.
-/

namespace Melnode

open Lib

namespace Melstf

variable {Sealed Unsealed : Type} {M : Melstf Sealed Unsealed} {genesis : GenesisConfig}

/-- The key signed the hashes of two headers of one height that hash differently. -/
def DoubleSigner (M : Melstf Sealed Unsealed) (signed : Ed25519PK → HashVal → Prop) (height : Nat)
    (pubkey : Ed25519PK) : Prop :=
  ∃ hd₁ hd₂ : Header, hd₁.height = height ∧ hd₂.height = height ∧
    M.headerHash hd₁ ≠ M.headerHash hd₂ ∧ signed pubkey (M.headerHash hd₁) ∧
      signed pubkey (M.headerHash hd₂)

/-- The stored proofs hold only signatures that exist. -/
def SignaturesExist (M : Melstf Sealed Unsealed) (signed : Ed25519PK → HashVal → Prop)
    (db : Tables) : Prop :=
  ∀ {h blk cproof pubkey}, db.block? h = some blk → db.consensusProofs[h]? = some cproof →
    M.signedBy (M.headerHash blk.header) cproof pubkey = true →
    signed pubkey (M.headerHash blk.header)

/-- What two storages rely on: signatures, few double signers, and hashes that do not collide on
what they store. -/
structure HonestThird (M : Melstf Sealed Unsealed) (genesis : GenesisConfig)
    (signed : Ed25519PK → HashVal → Prop) (db₁ db₂ : Tables) : Prop where
  exist₁ : M.SignaturesExist signed db₁
  exist₂ : M.SignaturesExist signed db₂
  -- on a common parent state: one with the same header and the same stakes
  double : ∀ {h : Nat} {s₁ s₂ : Sealed}, M.stateAt genesis db₁ h = .ok s₁ →
    M.stateAt genesis db₂ h = .ok s₂ → M.header s₁ = M.header s₂ →
    M.rawStakes s₁ = M.rawStakes s₂ → ∀ p : Ed25519PK → Bool,
    (∀ pubkey, p pubkey = true → M.DoubleSigner signed (h + 1) pubkey) →
    3 * activeStake (M.rawStakes s₁).docs (M.epoch (h + 1)) p ≤
      (M.rawStakes s₁).totalVotes (M.epoch (h + 1))
  headerHash : ∀ {h : Nat} {blk₁ blk₂ : Block}, db₁.block? h = some blk₁ →
    db₂.block? h = some blk₂ → M.headerHash blk₁.header = M.headerHash blk₂.header →
    blk₁.header = blk₂.header
  stakesHash : ∀ {h : Nat}, M.stakesHash (M.getStakeset genesis db₁ h) =
    M.stakesHash (M.getStakeset genesis db₂ h) →
    M.getStakeset genesis db₁ h = M.getStakeset genesis db₂ h

/-- Every stored block carries a quorum of the stakes below it. -/
abbrev QuorumStored (M : Melstf Sealed Unsealed) (genesis : GenesisConfig) (db : Tables) : Prop :=
  M.StoredMeet genesis (fun s blk cproof => M.HasQuorum (M.rawStakes s) blk cproof) db

section Agreement

variable {signed : Ed25519PK → HashVal → Prop} {db₁ db₂ : Tables}

/-- Two quorums over the same stakes for one height: the keys behind both signed twice, unless the
hashes are equal. -/
theorem hash_eq_of_quorums {stakes : StakeSet} {blk₁ blk₂ : Block} {cproof₁ cproof₂ : ConsensusProof}
    {h : Nat} (hh₁ : blk₁.header.height = h) (hh₂ : blk₂.header.height = h)
    (hs₁ : ∀ pubkey, M.signedBy (M.headerHash blk₁.header) cproof₁ pubkey = true →
      signed pubkey (M.headerHash blk₁.header))
    (hs₂ : ∀ pubkey, M.signedBy (M.headerHash blk₂.header) cproof₂ pubkey = true →
      signed pubkey (M.headerHash blk₂.header))
    (hdouble : ∀ p : Ed25519PK → Bool,
      (∀ pubkey, p pubkey = true → M.DoubleSigner signed h pubkey) →
      3 * activeStake stakes.docs (M.epoch h) p ≤ stakes.totalVotes (M.epoch h))
    (hq₁ : M.HasQuorum stakes blk₁ cproof₁) (hq₂ : M.HasQuorum stakes blk₂ cproof₂) :
    M.headerHash blk₁.header = M.headerHash blk₂.header := by
  by_contra hne
  let both : Ed25519PK → Bool := fun pubkey =>
    M.signedBy (M.headerHash blk₁.header) cproof₁ pubkey &&
      M.signedBy (M.headerHash blk₂.header) cproof₂ pubkey
  have hfew := hdouble both (by
    intro pubkey hboth
    obtain ⟨h₁, h₂⟩ := Bool.and_eq_true_iff.mp hboth
    exact ⟨blk₁.header, blk₂.header, hh₁, hh₂, hne, hs₁ pubkey h₁, hs₂ pubkey h₂⟩)
  unfold HasQuorum signedStake at hq₁ hq₂
  rw [hh₁] at hq₁
  rw [hh₂] at hq₂
  have hmany := third_lt_weigh_and StakeDoc.symsStaked
    (a := fun d : StakeDoc => d.activeIn (M.epoch h) && true)
    (p := fun d : StakeDoc => d.activeIn (M.epoch h) &&
      M.signedBy (M.headerHash blk₁.header) cproof₁ d.pubkey)
    (q := fun d : StakeDoc => d.activeIn (M.epoch h) &&
      M.signedBy (M.headerHash blk₂.header) cproof₂ d.pubkey)
    (l := stakes.docs) ?_ ?_ hq₁ hq₂
  · have hsame : weigh StakeDoc.symsStaked
        (fun d : StakeDoc => (d.activeIn (M.epoch h) &&
            M.signedBy (M.headerHash blk₁.header) cproof₁ d.pubkey) &&
          (d.activeIn (M.epoch h) &&
            M.signedBy (M.headerHash blk₂.header) cproof₂ d.pubkey)) stakes.docs =
        activeStake stakes.docs (M.epoch h) both := by
      apply weigh_congr
      intro d _
      cases d.activeIn (M.epoch h) <;> rfl
    rw [hsame] at hmany
    exact absurd hfew (Nat.not_le.mpr hmany)
  · intro d _ hd
    simp only [Bool.and_true]
    exact (Bool.and_eq_true_iff.mp hd).1
  · intro d _ hd
    simp only [Bool.and_true]
    exact (Bool.and_eq_true_iff.mp hd).1

/-- Equal headers at a height make the stakes there equal. -/
theorem common_parent (hB : M.BuildsStates)
    (hhonest : M.HonestThird genesis signed db₁ db₂) {h : Nat} {s₁ s₂ : Sealed}
    (hs₁ : M.stateAt genesis db₁ h = .ok s₁) (hs₂ : M.stateAt genesis db₂ h = .ok s₂)
    (ih : ∀ {blk₁ blk₂}, db₁.block? h = some blk₁ → db₂.block? h = some blk₂ →
      blk₁.header = blk₂.header) :
    M.header s₁ = M.header s₂ ∧ M.rawStakes s₁ = M.rawStakes s₂ := by
  rcases Nat.eq_zero_or_pos h with rfl | hpos
  · rw [stateAt_zero] at hs₁ hs₂
    cases hs₁
    cases hs₂
    exact ⟨rfl, rfl⟩
  · obtain ⟨blk₁, hblk₁, hhash₁, rfl⟩ := stateAt_ok hpos hs₁
    obtain ⟨blk₂, hblk₂, hhash₂, rfl⟩ := stateAt_ok hpos hs₂
    have hheader := ih hblk₁ hblk₂
    rw [hB.header_fromBlock, hB.header_fromBlock, hB.rawStakes_fromBlock, hB.rawStakes_fromBlock]
    refine ⟨hheader, hhonest.stakesHash ?_⟩
    rw [hhash₁, hhash₂, hheader]

/-- **Agreement of two chains** whose blocks carry quorums. -/
theorem header_eq_of_quorums (hB : M.BuildsStates) (h₁ : M.Chain genesis db₁)
    (h₂ : M.Chain genesis db₂) (hq₁ : M.QuorumStored genesis db₁)
    (hq₂ : M.QuorumStored genesis db₂) (hhonest : M.HonestThird genesis signed db₁ db₂) :
    ∀ h {blk₁ blk₂}, db₁.block? h = some blk₁ → db₂.block? h = some blk₂ →
      blk₁.header = blk₂.header := by
  have hwf₁ := h₁.wellFormed hB
  have hwf₂ := h₂.wellFormed hB
  intro h
  induction h with
  | zero =>
    intro blk₁ blk₂ hblk₁ _
    have := (hwf₁.block_le hblk₁).1
    omega
  | succ h ih =>
    intro blk₁ blk₂ hblk₁ hblk₂
    obtain ⟨cproof₁, s₁, s₁', hproof₁, hs₁, -⟩ := hwf₁.accepted hblk₁
    obtain ⟨cproof₂, s₂, s₂', hproof₂, hs₂, -⟩ := hwf₂.accepted hblk₂
    obtain ⟨hheader, hstakes⟩ := common_parent hB hhonest hs₁ hs₂ ih
    have hquorum₁ : M.HasQuorum (M.rawStakes s₁) blk₁ cproof₁ := hq₁ hblk₁ hproof₁ hs₁
    have hquorum₂ : M.HasQuorum (M.rawStakes s₁) blk₂ cproof₂ := by
      rw [hstakes]
      exact hq₂ hblk₂ hproof₂ hs₂
    apply hhonest.headerHash hblk₁ hblk₂
    exact hash_eq_of_quorums (hwf₁.block_height hblk₁) (hwf₂.block_height hblk₂)
      (fun pubkey => hhonest.exist₁ hblk₁ hproof₁) (fun pubkey => hhonest.exist₂ hblk₂ hproof₂)
      (hhonest.double hs₁ hs₂ hheader hstakes) hquorum₁ hquorum₂

end Agreement

/-- The stake ahead is harmless in an accepting check. -/
def HarmlessCheck (M : Melstf Sealed Unsealed) (s : Sealed) (blk : Block) (cproof : ConsensusProof) :
    Prop :=
  M.CreditHarmless (M.rawStakes s) blk cproof

instance (s : Sealed) (blk : Block) (cproof : ConsensusProof) :
    Decidable (M.HarmlessCheck s blk cproof) :=
  inferInstanceAs (Decidable (M.CreditHarmless _ _ _))

/-- The checks of a chain's blocks found quorums where the stake ahead was harmless. -/
theorem quorumStored_of_meet (hM : M.EnumeratesStakes) (hB : M.BuildsStates) {db : Tables}
    (hchain : M.Chain genesis db) (hmeet : M.StoredMeet genesis M.HarmlessCheck db) :
    M.QuorumStored genesis db := by
  intro h blk cproof s hblk hproof hs
  have hharmless : M.CreditHarmless (M.rawStakes s) blk cproof := hmeet hblk hproof hs
  obtain ⟨proof, t, t', hproof', ht, hcheck⟩ := (hchain.wellFormed hB).accepted hblk
  rw [hproof] at hproof'
  rw [hs] at ht
  cases hproof'
  cases ht
  exact hharmless.hasQuorum hM (checkBlock_ok_iff.mp hcheck).2.1

theorem quorumStored_of_harmless (hM : M.EnumeratesStakes) (hB : M.BuildsStates)
    {c : Procs.Config Nat (Shared Unsealed) (Call Sealed)}
    (hc : ((M.storage genesis).lts.guard (M.ChecksMeet M.HarmlessCheck)).Reachable c) :
    M.QuorumStored genesis c.shared.db :=
  quorumStored_of_meet hM hB (storage_reachable hB hc.of_guard).1.chain (storedMeet_of_checks hB hc)

/-- **No forks**: two storages of one genesis, run side by side in any interleaving of calls with
any blocks and proofs, hold the same header at every height both have, in every run where the stake
ahead is harmless in each check that accepts a block. -/
theorem no_forks (hM : M.EnumeratesStakes) (hB : M.BuildsStates)
    {signed : Ed25519PK → HashVal → Prop}
    {c₁ c₂ : Procs.Config Nat (Shared Unsealed) (Call Sealed)}
    (hc : (((M.storage genesis).lts.guard (M.ChecksMeet M.HarmlessCheck)).prod
      ((M.storage genesis).lts.guard (M.ChecksMeet M.HarmlessCheck))).Reachable (c₁, c₂))
    (hhonest : M.HonestThird genesis signed c₁.shared.db c₂.shared.db) {h : Nat}
    {blk₁ blk₂ : Block} (hblk₁ : c₁.shared.db.block? h = some blk₁)
    (hblk₂ : c₂.shared.db.block? h = some blk₂) : blk₁.header = blk₂.header := by
  obtain ⟨hc₁, hc₂⟩ := hc.of_prod
  exact header_eq_of_quorums hB (storage_reachable hB hc₁.of_guard).1.chain
    (storage_reachable hB hc₂.of_guard).1.chain (quorumStored_of_harmless hM hB hc₁)
    (quorumStored_of_harmless hM hB hc₂) hhonest h hblk₁ hblk₂

/-! ## Two storages of the three-staker network -/

section ThreeStakers

variable {db db' : Tables} {blk blk' : Block} {keys : List Ed25519PK}

theorem signaturesExist_of_first (hwf : ledger.WellFormed genesis db) (hH : db.highestHeight = 1)
    (hproof : db.consensusProofs[1]? = some (Ledger.proofBy keys blk)) :
    ledger.SignaturesExist (fun pubkey _ => pubkey ∈ keys) db := by
  intro h b cproof pubkey hb hcproof hsigned
  have hle := hwf.block_le hb
  obtain rfl : h = 1 := by omega
  rw [hproof] at hcproof
  cases hcproof
  unfold signedBy at hsigned
  cases hv : (Ledger.proofBy keys blk)[pubkey]? with
  | none =>
    rw [hv] at hsigned
    cases hsigned
  | some v => exact Ledger.mem_proofBy hv

/-- Two storages at height 1 of which some keys signed both blocks: the assumptions hold if these
keys have at most a third of the stake. -/
theorem honestThird_of_first (hB : ledger.BuildsStates) (hwf : ledger.WellFormed genesis db)
    (hwf' : ledger.WellFormed genesis db') (hH : db.highestHeight = 1)
    (hH' : db'.highestHeight = 1) (hblk : db.block? 1 = some blk)
    (hblk' : db'.block? 1 = some blk') (hproof : db.consensusProofs[1]? = some (Ledger.proofBy keys blk))
    (hproof' : db'.consensusProofs[1]? = some (Ledger.proofBy keys blk'))
    (hstakes : db.stakes = db'.stakes)
    (hhash : ledger.headerHash blk.header ≠ ledger.headerHash blk'.header)
    (hfew : 3 * activeStake (ledger.rawStakes (ledger.genesisState genesis)).docs (ledger.epoch 1)
        (fun pubkey => keys.contains pubkey) ≤
      (ledger.rawStakes (ledger.genesisState genesis)).totalVotes (ledger.epoch 1)) :
    ledger.HonestThird genesis (fun pubkey _ => pubkey ∈ keys) db db' := by
  refine ⟨signaturesExist_of_first hwf hH hproof, signaturesExist_of_first hwf' hH' hproof', ?_, ?_,
    ?_⟩
  · intro h s₁ s₂ hs₁ hs₂ hheader _ p hp
    rcases Nat.eq_zero_or_pos h with rfl | hpos
    · -- the genesis state
      rw [stateAt_zero] at hs₁
      cases hs₁
      have hle := activeStake_mono (ledger.rawStakes (ledger.genesisState genesis)).docs
        (ledger.epoch 1) (p := p) (q := fun pubkey => keys.contains pubkey) (by
          intro pubkey hpk
          obtain ⟨-, -, -, -, -, hin, -⟩ := hp pubkey hpk
          exact List.contains_iff_mem.mpr hin)
      exact Nat.le_trans (Nat.mul_le_mul_left 3 hle) hfew
    · -- at height 1 the headers differ, above it there is nothing
      obtain ⟨b, hb, -, rfl⟩ := stateAt_ok hpos hs₁
      obtain ⟨b', hb', -, rfl⟩ := stateAt_ok hpos hs₂
      have hle := hwf.block_le hb
      obtain rfl : h = 1 := by omega
      rw [hblk] at hb
      rw [hblk'] at hb'
      cases hb
      cases hb'
      rw [hB.header_fromBlock, hB.header_fromBlock] at hheader
      exact absurd (congrArg ledger.headerHash hheader) hhash
  · intro h b b' hb hb' heq
    have hle := hwf.block_le hb
    obtain rfl : h = 1 := by omega
    rw [hblk] at hb
    rw [hblk'] at hb'
    cases hb
    cases hb'
    exact absurd heq hhash
  · intro h _
    unfold getStakeset
    rw [hstakes]

/-- Two tables with one block at most, the same: the assumptions hold if nothing else was signed. -/
theorem honestThird_of_one (hone : ∀ {h : Nat} {b : Block}, db.block? h = some b → b = blk)
    (hone' : ∀ {h : Nat} {b : Block}, db'.block? h = some b → b = blk)
    (hstakes : db.stakes = db'.stakes) :
    ledger.HonestThird genesis (fun _ hash => hash = ledger.headerHash blk.header) db db' := by
  refine ⟨fun hb _ _ => by rw [hone hb], fun hb _ _ => by rw [hone' hb], ?_, ?_, ?_⟩
  · intro h s₁ s₂ _ _ _ _ p hp
    have hnone : activeStake (ledger.rawStakes s₁).docs (ledger.epoch (h + 1)) p ≤
        activeStake (ledger.rawStakes s₁).docs (ledger.epoch (h + 1)) fun _ => false := by
      apply activeStake_mono
      intro pubkey hpk
      obtain ⟨hd₁, hd₂, -, -, hne, heq₁, heq₂⟩ := hp pubkey hpk
      exact absurd (heq₁.trans heq₂.symm) hne
    have hzero : activeStake (ledger.rawStakes s₁).docs (ledger.epoch (h + 1))
        (fun _ => false) = 0 := by
      simp [activeStake, weigh]
    omega
  · intro h b b' hb hb' _
    rw [hone hb, hone' hb']
  · intro h _
    unfold getStakeset
    rw [hstakes]

theorem block_eq_of_first (hwf : ledger.WellFormed genesis db) (hH : db.highestHeight = 1)
    (hblk : db.block? 1 = some blk) {h : Nat} {b : Block} (hb : db.block? h = some b) : b = blk := by
  have hle := hwf.block_le hb
  obtain rfl : h = 1 := by omega
  exact Option.some.inj (hb.symm.trans hblk)

/-- Two storages with the same first block: the assumptions hold if nothing else was signed. -/
theorem honestThird_of_same (hwf : ledger.WellFormed genesis db)
    (hwf' : ledger.WellFormed genesis db') (hH : db.highestHeight = 1)
    (hH' : db'.highestHeight = 1) (hblk : db.block? 1 = some blk)
    (hblk' : db'.block? 1 = some blk) (hstakes : db.stakes = db'.stakes) :
    ledger.HonestThird genesis (fun _ hash => hash = ledger.headerHash blk.header) db db' :=
  honestThird_of_one (block_eq_of_first hwf hH hblk) (block_eq_of_first hwf' hH' hblk') hstakes

/-- A storage that refuses the first block under key 1's signature alone and then commits it. -/
def committedLate : Procs.Config Nat (Shared Ledger.Unsealed) (Call Ledger.Sealed) :=
  ledger.storageAfter Ledger.threeStakers
    (ofCall 0 ([.invoke (Ledger.firstBlock 1) (Ledger.proofBy [1] (Ledger.firstBlock 1)), .acquire] ++
        reads 0 ++ [.check]) ++
      soloCall 1 0 (Ledger.firstBlock 1) (Ledger.proofBy [1, 2, 3] (Ledger.firstBlock 1)))

/-- Two storages that commit the block everybody signed agree. -/
theorem no_forks_firstBlock :
    ∃ blk₁ blk₂, committedLate.shared.db.block? 1 = some blk₁ ∧
      (Ledger.committed (Ledger.firstBlock 1) [1, 2, 3]).shared.db.block? 1 = some blk₂ ∧
      blk₁.header = blk₂.header := by
  have hlate : ((ledger.storage Ledger.threeStakers).lts.guard
      (ledger.ChecksMeet ledger.HarmlessCheck)).Reachable committedLate :=
    storageAfter_guarded _ _ (by decide +kernel)
  have hreach : ((ledger.storage Ledger.threeStakers).lts.guard
      (ledger.ChecksMeet ledger.HarmlessCheck)).Reachable
        (Ledger.committed (Ledger.firstBlock 1) [1, 2, 3]) :=
    storageAfter_guarded _ _ (by decide +kernel)
  have hblk₁ : committedLate.shared.db.block? 1 = some (Ledger.firstBlock 1) := by decide +kernel
  have hblk₂ : (Ledger.committed (Ledger.firstBlock 1) [1, 2, 3]).shared.db.block? 1 =
      some (Ledger.firstBlock 1) := by decide +kernel
  have hhonest := honestThird_of_same
    ((storage_reachable ledger_builds hlate.of_guard).1.chain.wellFormed ledger_builds)
    ((storage_reachable ledger_builds hreach.of_guard).1.chain.wellFormed ledger_builds)
    (by decide +kernel) (by decide +kernel) hblk₁ hblk₂ (by decide +kernel)
  exact ⟨_, _, hblk₁, hblk₂,
    no_forks ledger_enumerates ledger_builds (hlate.prod hreach) hhonest hblk₁ hblk₂⟩

/-- Key 3 signs two blocks; each storage commits one of them on that signature alone. -/
theorem no_forks_lastStaker :
    ((ledger.storage Ledger.threeStakers).lts.prod
        (ledger.storage Ledger.threeStakers).lts).Reachable
        (Ledger.committed (Ledger.firstBlock 1) [3], Ledger.committed (Ledger.firstBlock 2) [3]) ∧
      ledger.HonestThird Ledger.threeStakers (fun pubkey _ => pubkey ∈ [3])
        (Ledger.committed (Ledger.firstBlock 1) [3]).shared.db (Ledger.committed (Ledger.firstBlock 2) [3]).shared.db ∧
      (Ledger.committed (Ledger.firstBlock 1) [3]).shared.db.block? 1 = some (Ledger.firstBlock 1) ∧
      (Ledger.committed (Ledger.firstBlock 2) [3]).shared.db.block? 1 = some (Ledger.firstBlock 2) ∧
      (Ledger.firstBlock 1).header ≠ (Ledger.firstBlock 2).header := by
  have hreach₁ : (ledger.storage Ledger.threeStakers).lts.Reachable (Ledger.committed (Ledger.firstBlock 1) [3]) :=
    storageAfter_reachable _ _ (by decide +kernel)
  have hreach₂ : (ledger.storage Ledger.threeStakers).lts.Reachable (Ledger.committed (Ledger.firstBlock 2) [3]) :=
    storageAfter_reachable _ _ (by decide +kernel)
  have hblk₁ : (Ledger.committed (Ledger.firstBlock 1) [3]).shared.db.block? 1 = some (Ledger.firstBlock 1) := by
    decide +kernel
  have hblk₂ : (Ledger.committed (Ledger.firstBlock 2) [3]).shared.db.block? 1 = some (Ledger.firstBlock 2) := by
    decide +kernel
  refine ⟨hreach₁.prod hreach₂, ?_, hblk₁, hblk₂, by decide +kernel⟩
  exact honestThird_of_first ledger_builds
    ((storage_reachable ledger_builds hreach₁).1.chain.wellFormed ledger_builds)
    ((storage_reachable ledger_builds hreach₂).1.chain.wellFormed ledger_builds)
    (by decide +kernel) (by decide +kernel) hblk₁ hblk₂ (by decide +kernel) (by decide +kernel)
    (by decide +kernel) (by decide +kernel) (by decide +kernel)

end ThreeStakers

end Melstf

end Melnode
