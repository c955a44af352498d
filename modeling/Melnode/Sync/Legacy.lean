import Melnode.Sync.Blksync

/-!
# Legacy block sync

`attempt_blksync_legacy` asks for one block after the other, at most
`THEMELIO_BLKSYNC_BATCH` of them. From an honest peer whose chain stands still it gets what
`attempt_blksync` gets, cut to that many blocks (`legacy_agrees`).
-/

namespace Melnode

open Lib

/-- A peer that also answers `get_full_block`, of which `melprot` makes a block and its proof. -/
structure FullPeer (σ ω : Type) extends Peer σ ω where
  getFullBlock : σ → Nat → Option (Option (Block × ConsensusProof) × σ)

/-- `(my_highest.0..=their_highest.0).skip(1)` and `.take(..)`. -/
def legacyHeights (myHighest theirHighest batch : Nat) : List Nat :=
  ((List.range' myHighest (theirHighest + 1 - myHighest)).drop 1).take batch

/-- The heights are the next ones, up to the reported one or the cap. -/
theorem legacyHeights_eq (myHighest g batch : Nat) :
    legacyHeights myHighest (myHighest + g) batch = List.range' (myHighest + 1) (min g batch) := by
  unfold legacyHeights
  rw [List.drop_range', show myHighest + g + 1 - myHighest - 1 = g by omega]
  rcases Nat.le_total g batch with hle | hle
  · rw [List.take_range'_of_length_le hle, Nat.min_eq_left hle]
  · rw [List.take_range'_of_length_ge hle, Nat.min_eq_right hle]

namespace Melstf

variable {Sealed Unsealed : Type} (M : Melstf Sealed Unsealed) (genesis : GenesisConfig)
  {σ ω : Type}

/-- The `while let Some(res)` loop of `attempt_blksync_legacy`, on the heights its stream has still to
go through; `try_buffered` keeps their order, so an error ends the loop when its block is due. -/
def legacyLoop (P : FullPeer σ ω) : List Nat → σ → Nat → Store Unsealed →
    Except (Fault SyncError) Nat × Store Unsealed
  | [], _, toret, st => (.ok toret, st)
  | height :: rest, peer, toret, st =>
    match P.getFullBlock peer height with
    | none => (.error (.bail .request), st)
    -- "mysteriously missing block {height}"
    | some (none, _) => (.error (.bail (.missing height)), st)
    | some (some (block, proof), peer) =>
      if block.header.height ≠ height then
        -- "WANTED BLK {height}, got {got}"
        (.error (.bail (.wanted height block.header.height)), st)
      else
        match M.storeBlock genesis st block proof with
        | (.error (.bail e), st) => (.error (.bail (.apply e)), st)
        | (.error (.panic site), st) => (.error (.panic site), st)
        | (.ok (), st) => legacyLoop P rest peer (toret + 1) st

/-- `attempt_blksync_legacy`, undisturbed and without timeouts. -/
def attemptBlksyncLegacy (P : FullPeer σ ω) (batch : Nat) (peer : σ) (st : Store Unsealed) :
    Except (Fault SyncError) Nat × Store Unsealed :=
  match P.getSummary peer with
  | none => (.error (.bail .summary), st)
  | some (theirHighest, peer) =>
    if theirHighest ≤ st.db.highestHeight then (.ok 0, st)
    else M.legacyLoop genesis P (legacyHeights st.db.highestHeight theirHighest batch) peer 0 st

/-- An honest peer that answers `get_full_block` with its stored block and proof. -/
def honestFullPeer (W : Wire ω)
    (server : Nat → Procs.Config Nat (Shared Unsealed) (Call Sealed)) : FullPeer Nat ω where
  toPeer := M.honestPeer genesis W server
  getFullBlock tick height :=
    some (((server tick).shared.getBlock height).bind fun block =>
      ((server tick).shared.getConsensus height).map fun proof => (block, proof), tick + 1)

/-! ## The mempool after a sync -/

/-- The mempool is a fresh one on the highest state. -/
def Rebased (st : Store Unsealed) : Prop :=
  ∃ s, M.highestState genesis st.db = .ok s ∧ st.mempool = Mempool.rebase M s

/-- Between two points of a sync nothing has been applied, or the mempool is rebased. -/
inductive Advance (num : Nat) (st : Store Unsealed) : Nat → Store Unsealed → Prop where
  | still : Advance num st num st
  | moved {num' : Nat} {st' : Store Unsealed} (hlt : num < num') (hrebased : M.Rebased genesis st') :
      Advance num st num' st'

/-- `st₂` is what `st₁` is up to the first `n` blocks that were put on `st`. -/
structure CutTo (st st₁ : Store Unsealed) (n : Nat) (st₂ : Store Unsealed) : Prop where
  db : st₂.db = st₁.db.upTo (st.db.highestHeight + n)
  nothing : n = 0 → st₂ = st
  rebased : 0 < n → M.Rebased genesis st₂

variable {M genesis}
variable {num num' num'' : Nat} {st st' st'' : Store Unsealed}

theorem Rebased.eq_of_db (h : M.Rebased genesis st) (h' : M.Rebased genesis st')
    (hdb : st.db = st'.db) : st = st' := by
  obtain ⟨db, mempool⟩ := st
  obtain ⟨db', mempool'⟩ := st'
  obtain ⟨s, hs, hmempool⟩ := h
  obtain ⟨s', hs', hmempool'⟩ := h'
  dsimp only at hdb hs hs' hmempool hmempool'
  subst hdb
  obtain rfl : s = s' := Except.ok.inj (hs.symm.trans hs')
  rw [hmempool, hmempool']

theorem storeBlock_rebased {blk : Block} {cproof : ConsensusProof}
    (h : M.storeBlock genesis st blk cproof = (.ok (), st')) : M.Rebased genesis st' := by
  obtain ⟨s, s', next, db, -, -, -, hnext, rfl⟩ := storeBlock_ok_iff.mp h
  exact ⟨next, hnext, rfl⟩

namespace Advance

theorem le (h : M.Advance genesis num st num' st') : num ≤ num' := by
  cases h with
  | still => exact Nat.le_refl num
  | moved hlt => exact Nat.le_of_lt hlt

theorem trans (h : M.Advance genesis num st num' st') (h' : M.Advance genesis num' st' num'' st'') :
    M.Advance genesis num st num'' st'' := by
  cases h' with
  | still => exact h
  | moved hlt hrebased => exact .moved (Nat.lt_of_le_of_lt h.le hlt) hrebased

theorem store {blk : Block} {cproof : ConsensusProof}
    (h : M.storeBlock genesis st blk cproof = (.ok (), st')) :
    M.Advance genesis num st (num + 1) st' :=
  .moved (Nat.lt_succ_self num) (storeBlock_rebased h)

theorem eq_of_le (h : M.Advance genesis num st num' st') (hle : num' ≤ num) : st' = st := by
  cases h with
  | still => rfl
  | moved hlt => omega

theorem rebased (h : M.Advance genesis num st num' st') (hlt : num < num') :
    M.Rebased genesis st' := by
  cases h with
  | still => exact absurd hlt (Nat.lt_irrefl num)
  | moved _ hrebased => exact hrebased

end Advance

theorem applyBatch_advance {height : Nat} : ∀ {pairs : List (Block × ConsensusProof)}
    {last num : Nat} {st : Store Unsealed},
    M.applyBatch genesis height pairs last num st = (.ok num', st') →
      M.Advance genesis num st num' st' := by
  intro pairs
  induction pairs with
  | nil =>
    intro last num st h
    cases h
    exact .still
  | cons pair pairs ih =>
    intro last num st h
    unfold applyBatch at h
    split at h
    · cases h
    · split at h
      · cases h
      · cases h
      · next hstore => exact (Advance.store hstore).trans (ih h)

theorem syncLoop_advance {W : Wire ω} {P : Peer σ ω} {theirHighest : Nat} : ∀ {fuel : Nat} {peer : σ}
    {height num : Nat} {st : Store Unsealed},
    M.syncLoop genesis W P theirHighest fuel peer height num st = some (.ok num', st') →
      M.Advance genesis num st num' st' := by
  intro fuel
  induction fuel with
  | zero =>
    intro peer height num st h
    cases h
  | succ fuel ih =>
    intro peer height num st h
    unfold syncLoop at h
    split at h
    · split at h
      · cases h
      · cases h
      · split at h
        · cases h
        · split at h
          · cases h
          · next happly => exact (applyBatch_advance happly).trans (ih h)
    · cases h
      exact .still

theorem legacyLoop_advance {P : FullPeer σ ω} : ∀ {heights : List Nat} {peer : σ} {num : Nat}
    {st : Store Unsealed},
    M.legacyLoop genesis P heights peer num st = (.ok num', st') →
      M.Advance genesis num st num' st' := by
  intro heights
  induction heights with
  | nil =>
    intro peer num st h
    cases h
    exact .still
  | cons height heights ih =>
    intro peer num st h
    unfold legacyLoop at h
    split at h
    · cases h
    · cases h
    · split at h
      · cases h
      · split at h
        · cases h
        · cases h
        · next hstore => exact (Advance.store hstore).trans (ih h)

/-! ## From a chain that stands still -/

section Still

variable {W : Wire ω} {c : Procs.Config Nat (Shared Unsealed) (Call Sealed)}
  (hc : (M.storage genesis).lts.Reachable c)
include hc

omit hc in
theorem highestState_of_answer (h : ((M.honestPeer genesis W fun _ => c).getSummary 0).isSome) :
    ∃ s, M.highestState genesis c.shared.db = .ok s := by
  unfold honestPeer at h
  dsimp only at h
  cases hs : M.highestState genesis c.shared.db with
  | ok s => exact ⟨s, rfl⟩
  | error site =>
    rw [hs] at h
    cases h

theorem serves_still : M.Serves genesis fun _ => c :=
  ⟨hc, fun _ => Lts.Reaches.refl _⟩

variable (hB : M.BuildsStates)
include hB

/-- The peer has every block of its chain, with its proof. -/
theorem honestFullPeer_reply (tick : Nat) {height : Nat} (h1 : 1 ≤ height)
    (hle : height ≤ c.shared.db.highestHeight) :
    ∃ blk cproof, c.shared.db.block? height = some blk ∧
      c.shared.db.consensusProofs[height]? = some cproof ∧
      (M.honestFullPeer genesis W fun _ => c).getFullBlock tick height =
        some (some (blk, cproof), tick + 1) := by
  have hok := (storage_reachable hB hc).1
  have hwf := hok.chain.wellFormed hB
  obtain ⟨blk, hblk⟩ := hwf.block_isSome h1 hle
  obtain ⟨cproof, hproof⟩ := hwf.proof_of_block hblk
  refine ⟨blk, cproof, hblk, hproof, ?_⟩
  unfold honestFullPeer
  dsimp only
  rw [hok.getBlock_eq height, hblk, Option.bind_some, Shared.getConsensus, hproof]
  rfl

/-- **The legacy loop** over the next `n` heights applies their blocks. -/
theorem legacyLoop_spec {s : Sealed} (hs : M.highestState genesis c.shared.db = .ok s) :
    ∀ {n : Nat} (tick H toret : Nat) {st : Store Unsealed}, H + n ≤ c.shared.db.highestHeight →
      st.db = c.shared.db.upTo H →
      ∃ st', M.legacyLoop genesis (M.honestFullPeer genesis W fun _ => c) (List.range' (H + 1) n)
          tick toret st = (.ok (toret + n), st') ∧
        st'.db = c.shared.db.upTo (H + n) := by
  have hchain := (storage_reachable hB hc).1.chain
  intro n
  induction n with
  | zero => exact fun tick H toret st _ hst => ⟨st, rfl, hst⟩
  | succ n ih =>
    intro tick H toret st hle hst
    obtain ⟨blk, cproof, hblk, hproof, hreply⟩ :=
      honestFullPeer_reply (W := W) hc hB tick (Nat.succ_pos H) (by omega)
    obtain ⟨st₁, hstore, hst₁, hheight⟩ := storeBlock_next hB hchain hs hst hblk hproof
    obtain ⟨st', hloop, hst'⟩ := ih (tick + 1) (H + 1) (toret + 1) (by omega) hst₁
    refine ⟨st', ?_, ?_⟩
    · rw [List.range'_succ]
      unfold legacyLoop
      rw [hreply]
      dsimp only
      rw [if_neg (not_not_intro hheight), hstore]
      dsimp only
      rw [hloop, Nat.add_assoc, Nat.add_comm 1]
    · rw [hst', Nat.add_assoc, Nat.add_comm 1]

/-- **The batched sync** ends with the rows of the peer. -/
theorem attemptBlksync_still (hW : W.Lawful) {s : Sealed}
    (hs : M.highestState genesis c.shared.db = .ok s) (hpre : st.db.IsPrefix c.shared.db) {g : Nat}
    (hg : c.shared.db.highestHeight = st.db.highestHeight + g) :
    ∃ st₁, (∀ fuel, c.shared.db.highestHeight < fuel →
        M.attemptBlksync genesis W (M.honestPeer genesis W fun _ => c) fuel 0 st =
          some (.ok g, st₁)) ∧
      st₁.db = c.shared.db ∧ M.Advance genesis 0 st g st₁ := by
  have hsummary := honestPeer_summary hB (W := W) (serves_still hc) 0 hs
  have hwf := (storage_reachable hB hc).1.chain.wellFormed hB
  rcases Nat.eq_zero_or_pos g with rfl | hpos
  · refine ⟨st, fun fuel _ => ?_, ?_, .still⟩
    · unfold attemptBlksync
      rw [hsummary]
      exact if_pos (Nat.le_of_eq hg)
    · rw [← hpre.eq, ← Nat.add_zero st.db.highestHeight, ← hg]
      exact hwf.upTo_highestHeight
  · obtain ⟨n, st₁, k, hloop, hst₁, hle, htheirs⟩ :=
      syncLoop_spec hB hW (serves_still hc) (fun _ => ⟨s, hs⟩) (d := g) 1 st.db.highestHeight 0
        (Nat.le_of_eq hg) hpre.le (Nat.le_refl _) hpre.eq.symm
    obtain rfl : n = g := by omega
    refine ⟨st₁, fun fuel hfuel => ?_, ?_, ?_⟩
    · unfold attemptBlksync
      rw [hsummary]
      dsimp only
      rw [if_neg (by omega), hloop fuel (by omega), Nat.zero_add]
    · rw [hst₁, ← hg]
      exact hwf.upTo_highestHeight
    · have hrun := hloop (n + 1) (Nat.lt_succ_self n)
      rw [Nat.zero_add] at hrun
      exact syncLoop_advance hrun

/-- **The legacy sync** ends with the rows of the peer up to the cap. -/
theorem attemptBlksyncLegacy_still {s : Sealed}
    (hs : M.highestState genesis c.shared.db = .ok s) (hpre : st.db.IsPrefix c.shared.db) {g : Nat}
    (hg : c.shared.db.highestHeight = st.db.highestHeight + g) (batch : Nat) :
    ∃ st₂, M.attemptBlksyncLegacy genesis (M.honestFullPeer genesis W fun _ => c) batch 0 st =
        (.ok (min g batch), st₂) ∧
      st₂.db = c.shared.db.upTo (st.db.highestHeight + min g batch) ∧
      M.Advance genesis 0 st (min g batch) st₂ := by
  have hsummary : (M.honestFullPeer genesis W fun _ => c).getSummary 0 =
      some (c.shared.db.highestHeight, 1) :=
    honestPeer_summary hB (W := W) (serves_still hc) 0 hs
  unfold attemptBlksyncLegacy
  rw [hsummary]
  dsimp only
  rcases Nat.eq_zero_or_pos g with rfl | hpos
  · rw [Nat.add_zero] at hg
    rw [if_pos (Nat.le_of_eq hg), Nat.zero_min]
    exact ⟨st, rfl, hpre.eq.symm, .still⟩
  · obtain ⟨st₂, hloop, hst₂⟩ := legacyLoop_spec (W := W) hc hB hs (n := min g batch) 1
      st.db.highestHeight 0 (show _ ≤ _ by have := Nat.min_le_left g batch; omega) hpre.eq.symm
    rw [if_neg (by omega), hg, legacyHeights_eq, hloop]
    rw [Nat.zero_add] at hloop ⊢
    exact ⟨st₂, rfl, hst₂, legacyLoop_advance hloop⟩

/-- **Legacy and batched sync agree.** Let the chain of the peer stand still and extend the own rows
by `g` blocks, and let the peer answer `get_summary`. Then `attempt_blksync` ends, with enough fuel,
with `Ok(g)`, and `attempt_blksync_legacy` with `Ok(min(g, batch))` and the store of the other, cut to
as many new blocks. -/
theorem legacy_agrees (hW : W.Lawful) (hpre : st.db.IsPrefix c.shared.db) {g : Nat}
    (hg : c.shared.db.highestHeight = st.db.highestHeight + g)
    (hanswers : ((M.honestPeer genesis W fun _ => c).getSummary 0).isSome) (batch : Nat) :
    ∃ st₁ st₂,
      (∀ fuel, c.shared.db.highestHeight < fuel →
        M.attemptBlksync genesis W (M.honestFullPeer genesis W fun _ => c).toPeer fuel 0 st =
          some (.ok g, st₁)) ∧
      M.attemptBlksyncLegacy genesis (M.honestFullPeer genesis W fun _ => c) batch 0 st =
        (.ok (min g batch), st₂) ∧
      M.CutTo genesis st st₁ (min g batch) st₂ ∧
      (g ≤ batch → st₂ = st₁) := by
  obtain ⟨s, hs⟩ := highestState_of_answer hanswers
  obtain ⟨st₁, hsync, hst₁, hadvance₁⟩ := attemptBlksync_still hc hB hW hs hpre hg
  obtain ⟨st₂, hlegacy, hst₂, hadvance₂⟩ :=
    attemptBlksyncLegacy_still (W := W) hc hB hs hpre hg batch
  refine ⟨st₁, st₂, hsync, hlegacy, ⟨by rw [hst₁, hst₂], ?_, ?_⟩, fun hle => ?_⟩
  · intro h0
    exact hadvance₂.eq_of_le (Nat.le_of_eq h0)
  · exact hadvance₂.rebased
  · rw [Nat.min_eq_left hle] at hst₂ hadvance₂
    rcases Nat.eq_zero_or_pos g with rfl | hpos
    · rw [hadvance₁.eq_of_le (Nat.le_refl 0), hadvance₂.eq_of_le (Nat.le_refl 0)]
    · refine (hadvance₂.rebased hpos).eq_of_db (hadvance₁.rebased hpos) ?_
      rw [hst₁, hst₂, ← hg]
      exact ((storage_reachable hB hc).1.chain.wellFormed hB).upTo_highestHeight

end Still

theorem legacy_agrees_firstBlock :
    ∃ st₁ st₂,
      (∀ fuel, Ledger.oneBlock.shared.db.highestHeight < fuel →
        ledger.attemptBlksync Ledger.threeStakers Ledger.wire
          (ledger.honestFullPeer Ledger.threeStakers Ledger.wire fun _ => Ledger.oneBlock).toPeer fuel
            0 Ledger.freshStore = some (.ok 1, st₁)) ∧
      ledger.attemptBlksyncLegacy Ledger.threeStakers
        (ledger.honestFullPeer Ledger.threeStakers Ledger.wire fun _ => Ledger.oneBlock) 1000 0
          Ledger.freshStore = (.ok (min 1 1000), st₂) ∧
      ledger.CutTo Ledger.threeStakers Ledger.freshStore st₁ (min 1 1000) st₂ ∧
      (1 ≤ 1000 → st₂ = st₁) :=
  legacy_agrees Ledger.oneBlock_reachable ledger_builds Ledger.wire_lawful Ledger.fresh_isPrefix
    (by decide +kernel) (by decide +kernel) 1000

end Melstf

end Melnode
