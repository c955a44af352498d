import Melnode.Sync.Batch

/-!
# Block sync

`attempt_blksync` asks a peer for its height and then for batches of blocks until it has reached that
height, applying each block with the proof beside it. A `Peer` is whatever answers; `honestPeer` is
a node that answers from its storage. Syncing from an honest peer reproduces its rows, as long as
the peer has no block at its top whose stakes `get_state` refuses (`sync_honest`).
-/

namespace Melnode

open Lib

/-- What answers the requests of block sync, with states `σ`; `none` is a failed request. -/
structure Peer (σ ω : Type) where
  getSummary : σ → Option (Nat × σ)
  getLz4Blocks : σ → Nat → Nat → Option (Option ω × σ)

/-- The errors of `attempt_blksync`. -/
inductive SyncError where
  -- "cannot get their highest block"
  | summary
  -- "failed to get compressed blocks"
  | request
  -- "missing block {height}"
  | missing (height : Nat)
  | undecodable
  -- "wanted block {height}, but got {got}"
  | wanted (height got : Nat)
  -- "could not apply a resolved block"
  | apply (e : ApplyError)
  deriving DecidableEq, Repr

namespace Melstf

variable {Sealed Unsealed : Type} (M : Melstf Sealed Unsealed) (genesis : GenesisConfig)

/-- The `for (block, cproof) in ..` loop of `attempt_blksync` on a batch for `height`. -/
def applyBatch (height : Nat) : List (Block × ConsensusProof) → Nat → Nat → Store Unsealed →
    Except (Fault SyncError) Nat × Store Unsealed
  | [], _, numBlocksApplied, st => (.ok numBlocksApplied, st)
  | (block, cproof) :: rest, lastAppliedHeight, numBlocksApplied, st =>
    if block.header.height ≠ lastAppliedHeight then
      (.error (.bail (.wanted height block.header.height)), st)
    else
      match M.storeBlock genesis st block cproof with
      | (.error (.bail e), st) => (.error (.bail (.apply e)), st)
      | (.error (.panic site), st) => (.error (.panic site), st)
      | (.ok (), st) => applyBatch height rest (lastAppliedHeight + 1) (numBlocksApplied + 1) st

variable {σ ω : Type} (W : Wire ω) (P : Peer σ ω)

/-- The `while height <= their_highest` loop of `attempt_blksync`; `none` when the fuel is used up. -/
def syncLoop (theirHighest : Nat) : Nat → σ → Nat → Nat → Store Unsealed →
    Option (Except (Fault SyncError) Nat × Store Unsealed)
  | 0, _, _, _, _ => none
  | fuel + 1, peer, height, numBlocksApplied, st =>
    if height ≤ theirHighest then
      match P.getLz4Blocks peer height 500000 with
      | none => some (.error (.bail .request), st)
      | some (none, _) => some (.error (.bail (.missing height)), st)
      | some (some compressed, peer) =>
        match W.decode compressed with
        | none => some (.error (.bail .undecodable), st)
        | some (blocks, cproofs) =>
          match M.applyBatch genesis height (blocks.zip cproofs) height numBlocksApplied st with
          | (.error f, st) => some (.error f, st)
          | (.ok numBlocksApplied, st) =>
            syncLoop theirHighest fuel peer (height + blocks.length) numBlocksApplied st
    else
      some (.ok numBlocksApplied, st)

/-- `attempt_blksync`, undisturbed and without timeouts. -/
def attemptBlksync (fuel : Nat) (peer : σ) (st : Store Unsealed) :
    Option (Except (Fault SyncError) Nat × Store Unsealed) :=
  match P.getSummary peer with
  | none => some (.error (.bail .summary), st)
  | some (theirHighest, peer) =>
    if theirHighest ≤ st.db.highestHeight then some (.ok 0, st)
    else M.syncLoop genesis W P theirHighest fuel peer (st.db.highestHeight + 1) 0 st

/-- A node that answers from its storage, whose state is the number of reads it has made. A panic of
`highest_state` is no answer. -/
def honestPeer (server : Nat → Procs.Config Nat (Shared Unsealed) (Call Sealed)) :
    Peer Nat ω where
  getSummary tick :=
    match M.highestState genesis (server tick).shared.db with
    | .error _ => none
    | .ok highest => some ((M.header highest).height, tick + 1)
  getLz4Blocks tick height sizeLimit :=
    Melnode.getLz4Blocks W (fun t => (server t).shared) tick height sizeLimit

variable {M genesis W}

section Loop

variable {P} {theirHighest height num : Nat} {peer peer' : σ} {st st' : Store Unsealed}

theorem syncLoop_done (fuel : Nat) (hdone : theirHighest < height) :
    M.syncLoop genesis W P theirHighest (fuel + 1) peer height num st = some (.ok num, st) := by
  unfold syncLoop
  rw [if_neg (Nat.not_le.mpr hdone)]

/-- A round whose batch is applied whole. -/
theorem syncLoop_round (fuel : Nat) (hmore : height ≤ theirHighest) {compressed : ω}
    {blocks : List Block} {cproofs : List ConsensusProof} {num' : Nat}
    (hreply : P.getLz4Blocks peer height 500000 = some (some compressed, peer'))
    (hdecode : W.decode compressed = some (blocks, cproofs))
    (happly : M.applyBatch genesis height (blocks.zip cproofs) height num st = (.ok num', st')) :
    M.syncLoop genesis W P theirHighest (fuel + 1) peer height num st =
      M.syncLoop genesis W P theirHighest fuel peer' (height + blocks.length) num' st' := by
  conv_lhs => unfold syncLoop
  rw [if_pos hmore, hreply]
  simp only [hdecode, happly]

end Loop

section Honest

variable (hB : M.BuildsStates)
include hB

/-- Below the top every state of a chain can be rebuilt, and at the top where `highest_state` can. -/
theorem Chain.stateAt_isOk {db : Tables} (hchain : M.Chain genesis db) {s : Sealed}
    (hs : M.highestState genesis db = .ok s) {h : Nat} (hh : h ≤ db.highestHeight) :
    ∃ t, M.stateAt genesis db h = .ok t := by
  rcases Nat.lt_or_eq_of_le hh with hlt | rfl
  · obtain ⟨blk, cproof, t, t', -, -, ht, -⟩ := hchain.next hB h hlt
    exact ⟨t, ht⟩
  · exact ⟨s, hs⟩

/-- **One block**: on the rows of another chain up to a height, its next block is applied. -/
theorem storeBlock_next {db : Tables} (hchain : M.Chain genesis db) {s : Sealed}
    (hs : M.highestState genesis db = .ok s) {st : Store Unsealed} {h : Nat}
    (hst : st.db = db.upTo h) {blk : Block} {cproof : ConsensusProof}
    (hblk : db.block? (h + 1) = some blk) (hproof : db.consensusProofs[h + 1]? = some cproof) :
    ∃ st', M.storeBlock genesis st blk cproof = (.ok (), st') ∧ st'.db = db.upTo (h + 1) ∧
      blk.header.height = h + 1 := by
  have hwf := hchain.wellFormed hB
  have hlt : h < db.highestHeight := (hwf.block_le hblk).2
  obtain ⟨blk', cproof', t, t', hblk', hproof', ht, hcheck, hins⟩ := hchain.next hB h hlt
  obtain rfl : blk = blk' := Option.some.inj (hblk.symm.trans hblk')
  obtain rfl : cproof = cproof' := Option.some.inj (hproof.symm.trans hproof')
  obtain ⟨next, hnext⟩ := hchain.stateAt_isOk hB hs hlt
  have hhighest : M.highestState genesis st.db = .ok t := by
    rw [hst, highestState, (hchain.upTo hB h (Nat.le_of_lt hlt)).2, stateAt_upTo db (Nat.le_refl h)]
    exact ht
  have hafter : M.highestState genesis (db.upTo (h + 1)) = .ok next := by
    rw [highestState, (hchain.upTo hB (h + 1) hlt).2, stateAt_upTo db (Nat.le_refl _)]
    exact hnext
  refine ⟨⟨db.upTo (h + 1), Mempool.rebase M next⟩, ?_, rfl, hwf.block_height hblk⟩
  exact storeBlock_ok_iff.mpr ⟨t, t', next, _, hhighest, hcheck, by rw [hst]; exact hins, hafter, rfl⟩

/-- A relation `R db st h`, that the store has taken the blocks of a chain up to a height, which the
next block of the chain keeps, and the growth of the chain. -/
structure TakesNext (M : Melstf Sealed Unsealed) (genesis : GenesisConfig)
    (R : Tables → Store Unsealed → Nat → Prop) : Prop where
  grows : ∀ {db db' : Tables} {st : Store Unsealed} {h : Nat}, db.IsPrefix db' →
    h ≤ db.highestHeight → R db st h → R db' st h
  next : ∀ {db : Tables} {s : Sealed} {st : Store Unsealed} {h : Nat} {blk : Block}
    {cproof : ConsensusProof}, M.Chain genesis db → M.highestState genesis db = .ok s →
    R db st h → db.block? (h + 1) = some blk → db.consensusProofs[h + 1]? = some cproof →
    ∃ st', M.storeBlock genesis st blk cproof = (.ok (), st') ∧ R db st' (h + 1)

theorem takesNext_upTo : M.TakesNext genesis fun db st h => st.db = db.upTo h where
  grows := by
    intro db db' st h hG hh hst
    rw [hst, ← hG.eq, Tables.upTo_upTo _ hh]
  next := by
    intro db s st h blk cproof hchain hs hst hblk hproof
    obtain ⟨st', hstore, hst', -⟩ := storeBlock_next hB hchain hs hst hblk hproof
    exact ⟨st', hstore, hst'⟩

/-- **One batch** of a chain's blocks is applied whole. -/
theorem applyBatch_next {R : Tables → Store Unsealed → Nat → Prop} (hR : M.TakesNext genesis R)
    {db : Tables} (hchain : M.Chain genesis db) {s : Sealed}
    (hs : M.highestState genesis db = .ok s) (height : Nat) :
    ∀ (num : Nat) {pairs : List (Block × ConsensusProof)} {h : Nat} {st : Store Unsealed},
      R db st h → StoredFrom db (h + 1) pairs →
      ∃ st', M.applyBatch genesis height pairs (h + 1) num st = (.ok (num + pairs.length), st') ∧
        R db st' (h + pairs.length) := by
  intro num pairs
  induction pairs generalizing num with
  | nil => exact fun {h st} hst _ => ⟨st, rfl, hst⟩
  | cons pair pairs ih =>
    obtain ⟨blk, cproof⟩ := pair
    intro h st hst hstored
    obtain ⟨hblk, hproof, hrest⟩ := hstored
    have hheight := (hchain.wellFormed hB).block_height hblk
    obtain ⟨st₁, hstore, hst₁⟩ := hR.next hchain hs hst hblk hproof
    obtain ⟨st', happly, hst'⟩ := ih (num + 1) hst₁ hrest
    refine ⟨st', ?_, ?_⟩
    · unfold applyBatch
      rw [if_neg (not_not_intro hheight), hstore]
      dsimp only
      rw [happly, List.length_cons, Nat.add_assoc, Nat.add_comm 1]
    · rw [List.length_cons, Nat.add_comm pairs.length, ← Nat.add_assoc]
      exact hst'

omit hB in
theorem StoredFrom.le {db : Tables} (hwf : M.WellFormed genesis db) :
    ∀ {pairs : List (Block × ConsensusProof)} {h : Nat}, StoredFrom db (h + 1) pairs →
      h ≤ db.highestHeight → h + pairs.length ≤ db.highestHeight := by
  intro pairs
  induction pairs with
  | nil => exact fun _ hh => hh
  | cons pair pairs ih =>
    intro h hstored _
    have hle := (hwf.block_le hstored.1).2
    have hrest := ih hstored.2.2 hle
    rw [List.length_cons]
    omega

/-- **The loop** reaches the reported height with the blocks of the peer taken. -/
theorem syncLoop_next {R : Tables → Store Unsealed → Nat → Prop} (hR : M.TakesNext genesis R)
    (hW : W.Lawful) {server : Nat → Procs.Config Nat (Shared Unsealed) (Call Sealed)}
    (hserver : M.Serves genesis server)
    (halive : ∀ tick, ∃ s, M.highestState genesis (server tick).shared.db = .ok s)
    {theirHighest : Nat} : ∀ {d : Nat} (tick H num : Nat) {st : Store Unsealed},
      theirHighest ≤ H + d →
      H ≤ (server tick).shared.db.highestHeight →
      theirHighest ≤ (server tick).shared.db.highestHeight →
      R (server tick).shared.db st H →
      ∃ n st' k, (∀ fuel, d < fuel →
          M.syncLoop genesis W (M.honestPeer genesis W server) theirHighest fuel tick (H + 1) num st =
            some (.ok (num + n), st')) ∧
        R (server (tick + k)).shared.db st' (H + n) ∧
        H + n ≤ (server (tick + k)).shared.db.highestHeight ∧ theirHighest ≤ H + n := by
  intro d
  induction d with
  | zero =>
    intro tick H num st hd hH _ hst
    refine ⟨0, st, 0, fun fuel hfuel => ?_, hst, hH, hd⟩
    obtain ⟨fuel, rfl⟩ : ∃ f, fuel = f + 1 := ⟨fuel - 1, by omega⟩
    exact syncLoop_done fuel (Nat.lt_succ_of_le hd)
  | succ d ih =>
    intro tick H num st hd hH htheirs hst
    by_cases hdone : theirHighest ≤ H
    · refine ⟨0, st, 0, fun fuel hfuel => ?_, hst, hH, hdone⟩
      obtain ⟨fuel, rfl⟩ : ∃ f, fuel = f + 1 := ⟨fuel - 1, by omega⟩
      exact syncLoop_done fuel (Nat.lt_succ_of_le hdone)
    · obtain ⟨accum, proofAccum, k, hreply, hbatch⟩ :=
        getLz4Blocks_spec hB hW hserver 500000 (Nat.succ_pos H)
          (show H + 1 ≤ (server tick).shared.db.highestHeight by omega)
      have hgrows := hserver.grows hB tick k
      have hok := hserver.sharedOk hB (tick + k)
      have hle := Nat.le_trans hH hgrows.le
      obtain ⟨s, hs⟩ := halive (tick + k)
      have hst' : R (server (tick + k)).shared.db st H := hR.grows hgrows hH hst
      have hlength : accum.length = (accum.zip proofAccum).length := by
        conv_lhs => rw [hbatch.fst]
        exact List.length_map _
      have hpos : 0 < accum.length := List.length_pos_of_ne_nil hbatch.nonempty
      obtain ⟨st₁, happly, hst₁⟩ :=
        applyBatch_next hB hR hok.chain hs (H + 1) num hst' hbatch.stored
      have hH₁ := StoredFrom.le (hok.chain.wellFormed hB) hbatch.stored hle
      rw [← hlength] at happly hst₁ hH₁
      obtain ⟨n, st₂, k₂, hloop, hst₂, hH₂, htheirs₂⟩ :=
        ih (tick + k) (H + accum.length) (num + accum.length) (by omega) hH₁
          (Nat.le_trans htheirs hgrows.le) hst₁
      refine ⟨accum.length + n, st₂, k + k₂, fun fuel hfuel => ?_, ?_, ?_, ?_⟩
      · obtain ⟨fuel, rfl⟩ : ∃ f, fuel = f + 1 := ⟨fuel - 1, by omega⟩
        have hround := syncLoop_round (P := M.honestPeer genesis W server) fuel
          (show H + 1 ≤ theirHighest by omega) hreply (hW.decode_encode _) happly
        rw [hround, Nat.add_right_comm, hloop fuel (by omega), Nat.add_assoc]
      · rw [← Nat.add_assoc, ← Nat.add_assoc]
        exact hst₂
      · rw [← Nat.add_assoc, ← Nat.add_assoc]
        exact hH₂
      · rw [← Nat.add_assoc]
        exact htheirs₂

/-- The loop leaves the rows of the peer. -/
theorem syncLoop_spec (hW : W.Lawful)
    {server : Nat → Procs.Config Nat (Shared Unsealed) (Call Sealed)}
    (hserver : M.Serves genesis server)
    (halive : ∀ tick, ∃ s, M.highestState genesis (server tick).shared.db = .ok s)
    {theirHighest : Nat} : ∀ {d : Nat} (tick H num : Nat) {st : Store Unsealed},
      theirHighest ≤ H + d →
      H ≤ (server tick).shared.db.highestHeight →
      theirHighest ≤ (server tick).shared.db.highestHeight →
      st.db = (server tick).shared.db.upTo H →
      ∃ n st' k, (∀ fuel, d < fuel →
          M.syncLoop genesis W (M.honestPeer genesis W server) theirHighest fuel tick (H + 1) num st =
            some (.ok (num + n), st')) ∧
        st'.db = (server (tick + k)).shared.db.upTo (H + n) ∧
        H + n ≤ (server (tick + k)).shared.db.highestHeight ∧ theirHighest ≤ H + n :=
  syncLoop_next hB (takesNext_upTo hB) hW hserver halive

theorem honestPeer_summary {server : Nat → Procs.Config Nat (Shared Unsealed) (Call Sealed)}
    (hserver : M.Serves genesis server) (tick : Nat) {s : Sealed}
    (hs : M.highestState genesis (server tick).shared.db = .ok s) :
    (M.honestPeer genesis W server).getSummary tick =
      some ((server tick).shared.db.highestHeight, tick + 1) := by
  have hwf := (hserver.sharedOk hB tick).chain.wellFormed hB
  unfold honestPeer
  dsimp only
  rw [hs]
  dsimp only
  rw [hwf.stateAt_height hB hs]

/-- **Syncing from an honest peer reproduces its chain.** Let the peer's storage go through any run,
with `get_state` accepting the stakes of its highest block at each of its reads, and let the own rows
be a prefix of the peer's. Then `attempt_blksync` ends, with enough fuel, with `Ok(n)`; the own height
grows by `n`, to at least the reported one, and the own rows are the peer's up to it. -/
theorem sync_honest (hW : W.Lawful)
    {server : Nat → Procs.Config Nat (Shared Unsealed) (Call Sealed)}
    (hserver : M.Serves genesis server)
    (halive : ∀ tick, ∃ s, M.highestState genesis (server tick).shared.db = .ok s)
    {st : Store Unsealed} (hpre : st.db.IsPrefix (server 0).shared.db) :
    ∃ reported n st' tick,
      (M.honestPeer genesis W server).getSummary 0 = some (reported, 1) ∧
      (∀ fuel, reported < fuel →
        M.attemptBlksync genesis W (M.honestPeer genesis W server) fuel 0 st =
          some (.ok n, st')) ∧
      st'.db.highestHeight = st.db.highestHeight + n ∧ reported ≤ st'.db.highestHeight ∧
      st'.db.highestHeight ≤ (server tick).shared.db.highestHeight ∧
      st'.db = (server tick).shared.db.upTo st'.db.highestHeight := by
  obtain ⟨s, hs⟩ := halive 0
  have hsummary := honestPeer_summary hB (W := W) hserver 0 hs
  by_cases hle : (server 0).shared.db.highestHeight ≤ st.db.highestHeight
  · refine ⟨_, 0, st, 0, hsummary, fun fuel _ => ?_, rfl, hle, hpre.le, hpre.eq.symm⟩
    unfold attemptBlksync
    rw [hsummary]
    exact if_pos hle
  · obtain ⟨n, st', k, hloop, hst', hH, htheirs⟩ :=
      syncLoop_spec hB hW hserver halive 1 st.db.highestHeight 0
        (show (server 0).shared.db.highestHeight ≤
          st.db.highestHeight + (server 0).shared.db.highestHeight by omega)
        (Nat.le_trans hpre.le (hserver.grows hB 0 1).le) (hserver.grows hB 0 1).le
        (hpre.trans (hserver.grows hB 0 1)).eq.symm
    have hhighest : st'.db.highestHeight = st.db.highestHeight + n := by
      rw [hst', ((hserver.sharedOk hB (1 + k)).chain.upTo hB _ hH).2]
    refine ⟨_, n, st', 1 + k, hsummary, fun fuel hfuel => ?_, hhighest, ?_, ?_, ?_⟩
    · unfold attemptBlksync
      rw [hsummary]
      dsimp only
      rw [if_neg hle, hloop fuel hfuel, Nat.zero_add]
    · rw [hhighest]
      exact htheirs
    · rw [hhighest]
      exact hH
    · rw [hhighest]
      exact hst'

end Honest

end Melstf

/-! ## Syncing the three-staker network -/

namespace Ledger

/-- The lists themselves, and some lengths. -/
def wire : Wire (List Block × List ConsensusProof) where
  encode := id
  decode := some
  blockLen := fun blk => 200 + (blk.transactions.flatMap fun tx => tx.data ++ tx.rest).length
  proofLen := fun cproof => 1 + 100 * cproof.size

theorem wire_lawful : wire.Lawful where
  decode_encode _ := rfl
  blockLen_pos blk := by
    show 0 < 200 + _
    omega

/-- A store with no block. -/
def freshStore : Store Unsealed where
  db := (ledger.freshStorage threeStakers).shared.db
  mempool := (ledger.freshStorage threeStakers).shared.mempool

/-- A peer that has committed the first block. -/
def oneBlock : Procs.Config Nat (Shared Unsealed) (Call Sealed) := committed (firstBlock 1) [1, 2, 3]

/-- The second block, with a stake that starts in the current epoch. -/
def badSecond : Block :=
  match applyBlock (ledger.genesisState threeStakers) (firstBlock 1) with
  | .ok s => blockOn s [staking ⟨4, 0, 5, 7⟩]
  | .error _ => firstBlock 1

/-- The peer after it has committed the second block, about to panic. -/
def twoBlocks : Procs.Config Nat (Shared Unsealed) (Call Sealed) :=
  ((ledger.storage threeStakers).run oneBlock
    (Melstf.ofCall 1 ([.invoke badSecond (proofBy [1, 2, 3] badSecond), .acquire] ++
      Melstf.reads 1 ++ [.check, .start, .commit]))).getD oneBlock

/-- The peer commits the second block once it has reported its height. -/
def growingServer : Nat → Procs.Config Nat (Shared Unsealed) (Call Sealed)
  | 0 => oneBlock
  | _ + 1 => twoBlocks

theorem oneBlock_reachable : (ledger.storage threeStakers).lts.Reachable oneBlock := by
  unfold oneBlock committed
  exact Melstf.storageAfter_reachable _ _ (by with_unfolding_all decide)

theorem fresh_isPrefix : freshStore.db.IsPrefix oneBlock.shared.db := by
  refine Melstf.storage_isPrefix ledger_builds
    (c := ledger.freshStorage threeStakers) (Lts.Reachable.init ⟨rfl, rfl⟩) ?_
  unfold oneBlock committed Melstf.storageAfter
  exact Procs.reaches_end (by with_unfolding_all decide)

theorem oneBlock_alive :
    ∃ s, ledger.highestState threeStakers oneBlock.shared.db = .ok s := by
  have hok : (ledger.highestState threeStakers oneBlock.shared.db).isOk = true := by with_unfolding_all decide
  revert hok
  generalize ledger.highestState threeStakers oneBlock.shared.db = r
  intro hok
  cases r with
  | error site => cases hok
  | ok s => exact ⟨s, rfl⟩

theorem idleServer_serves : ledger.Serves threeStakers fun _ => oneBlock where
  start := oneBlock_reachable
  next _ := Lts.Reaches.refl _

theorem growingServer_serves : ledger.Serves threeStakers growingServer where
  start := oneBlock_reachable
  next tick := by
    cases tick with
    | zero =>
      show (ledger.storage threeStakers).lts.Reaches oneBlock twoBlocks
      unfold twoBlocks
      exact Procs.reaches_end (by with_unfolding_all decide)
    | succ tick => exact Lts.Reaches.refl _

theorem growing_isPrefix : freshStore.db.IsPrefix (growingServer 0).shared.db := by
  have h : growingServer 0 = oneBlock := by with_unfolding_all rfl
  rw [h]
  exact fresh_isPrefix

end Ledger

namespace Melstf

theorem sync_honest_firstBlock :
    ∃ reported n st', ∃ _ : Nat,
      (ledger.honestPeer Ledger.threeStakers Ledger.wire fun _ => Ledger.oneBlock).getSummary 0 =
        some (reported, 1) ∧
      (∀ fuel, reported < fuel →
        ledger.attemptBlksync Ledger.threeStakers Ledger.wire
          (ledger.honestPeer Ledger.threeStakers Ledger.wire fun _ => Ledger.oneBlock) fuel 0
            Ledger.freshStore = some (.ok n, st')) ∧
      st'.db.highestHeight = Ledger.freshStore.db.highestHeight + n ∧
      reported ≤ st'.db.highestHeight ∧
      st'.db.highestHeight ≤ Ledger.oneBlock.shared.db.highestHeight ∧
      st'.db = Ledger.oneBlock.shared.db.upTo st'.db.highestHeight := by
  have halive : ∀ _ : Nat, ∃ s,
      ledger.highestState Ledger.threeStakers Ledger.oneBlock.shared.db = .ok s :=
    fun _ => Ledger.oneBlock_alive
  exact sync_honest ledger_builds Ledger.wire_lawful Ledger.idleServer_serves halive
    Ledger.fresh_isPrefix

/-- The peer reports height 1 and then commits a block whose `Stake` transaction starts in the current
epoch; the sync takes it along and panics after committing it. -/
theorem sync_honest_badSecond :
    ledger.Serves Ledger.threeStakers Ledger.growingServer ∧
      Ledger.freshStore.db.IsPrefix (Ledger.growingServer 0).shared.db ∧
      (ledger.honestPeer Ledger.threeStakers Ledger.wire Ledger.growingServer).getSummary 0 =
        some (1, 1) ∧
      (ledger.attemptBlksync Ledger.threeStakers Ledger.wire
        (ledger.honestPeer Ledger.threeStakers Ledger.wire Ledger.growingServer) 2 0
          Ledger.freshStore).map Prod.fst = some (.error (.panic .stakesHashMismatch)) :=
  ⟨Ledger.growingServer_serves, Ledger.growing_isPrefix, by decide +kernel, by decide +kernel⟩

end Melstf

end Melnode
