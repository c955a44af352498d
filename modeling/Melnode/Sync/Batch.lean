import Melnode.Storage.Solo

/-!
# Serving blocks in batches

`get_lz4_blocks` reads blocks and proofs height by height until their encodings exceed the size
limit. The block that exceeds it is taken out again unless it is the only one; its proof stays in
the other list, and zipping the lists drops it. The storage may grow between any two reads.
-/

namespace Melnode

open Lib

/-- `stdcode`, `lz4_flex` and `base64`, as far as block sync uses them: the encoded pair of lists,
and the lengths of the `stdcode` encodings. -/
structure Wire (ω : Type) where
  encode : List Block × List ConsensusProof → ω
  decode : ω → Option (List Block × List ConsensusProof)
  blockLen : Block → Nat
  proofLen : ConsensusProof → Nat

/-- Decoding undoes encoding, and the encoding of a block is not empty. -/
structure Wire.Lawful {ω : Type} (W : Wire ω) : Prop where
  decode_encode : ∀ x, W.decode (W.encode x) = some x
  blockLen_pos : ∀ blk, 0 < W.blockLen blk

/-- The length of the encodings of blocks and their proofs. -/
def Wire.total {ω : Type} (W : Wire ω) (pairs : List (Block × ConsensusProof)) : Nat :=
  (pairs.map fun pair => W.blockLen pair.1 + W.proofLen pair.2).sum

variable {Sealed Unsealed : Type}

/-- `get_block`. -/
def Shared.getBlock (sh : Shared Unsealed) (h : Nat) : Option Block :=
  sh.oldCache[h]?.or (sh.db.block? h)

/-- `get_consensus`. -/
def Shared.getConsensus (sh : Shared Unsealed) (h : Nat) : Option ConsensusProof :=
  sh.db.consensusProofs[h]?

section Server

variable {ω : Type} (W : Wire ω) (server : Nat → Shared Unsealed)

/-- The loop of `get_lz4_blocks`; `server` is the storage at each of its reads, of which `tick` have
been made. -/
def batchLoop (sizeLimit : Nat) : Nat → Nat → Nat → Nat → List Block → List ConsensusProof →
    Option (Option (List Block × List ConsensusProof) × Nat)
  | 0, _, _, _, _, _ => none
  | fuel + 1, tick, height, totalCount, accum, proofAccum =>
    if totalCount ≤ sizeLimit then
      match (server tick).getBlock height with
      | some block =>
        match (server (tick + 1)).getConsensus height with
        | some proof =>
          let totalCount := totalCount + W.blockLen block + W.proofLen proof
          let accum := accum ++ [block]
          let proofAccum := proofAccum ++ [proof]
          -- `accum.pop()`, and no `proof_accum.pop()`
          let accum := if sizeLimit < totalCount ∧ 1 < accum.length then accum.dropLast else accum
          batchLoop sizeLimit fuel (tick + 2) (height + 1) totalCount accum proofAccum
        | none => batchLoop sizeLimit fuel (tick + 2) height totalCount accum proofAccum
      | none =>
        if accum.isEmpty then some (none, tick + 1) else some (some (accum, proofAccum), tick + 1)
    else
      some (some (accum, proofAccum), tick)

/-- `get_lz4_blocks`, started after `tick` reads. -/
def getLz4Blocks (tick height sizeLimit : Nat) : Option (Option ω × Nat) :=
  let sizeLimit := min sizeLimit 10000000
  (batchLoop W server sizeLimit (sizeLimit + 2) tick height 0 [] []).map fun (reply, tick) =>
    (reply.map W.encode, tick)

end Server

/-! ## Blocks and proofs as they are stored -/

/-- The blocks and proofs of consecutive heights. -/
def StoredFrom (db : Tables) : Nat → List (Block × ConsensusProof) → Prop
  | _, [] => True
  | h, (block, proof) :: rest =>
    db.block? h = some block ∧ db.consensusProofs[h]? = some proof ∧ StoredFrom db (h + 1) rest

namespace StoredFrom

variable {db db' : Tables} {block : Block} {proof : ConsensusProof}

theorem grows (hG : db.IsPrefix db') : ∀ {h : Nat} {pairs : List (Block × ConsensusProof)},
    StoredFrom db h pairs → StoredFrom db' h pairs
  | _, [], _ => trivial
  | _, (_, _) :: _, ⟨hblock, hproof, hrest⟩ =>
    ⟨hG.block? hblock, hG.keeps.proofs hproof, grows hG hrest⟩

theorem append : ∀ {h : Nat} {pairs : List (Block × ConsensusProof)}, StoredFrom db h pairs →
    db.block? (h + pairs.length) = some block →
    db.consensusProofs[h + pairs.length]? = some proof →
    StoredFrom db h (pairs ++ [(block, proof)])
  | h, [], _, hblock, hproof => ⟨hblock, hproof, trivial⟩
  | h, (_, _) :: pairs, ⟨hb, hp, hrest⟩, hblock, hproof => by
    have hlength : h + (pairs.length + 1) = h + 1 + pairs.length := by omega
    rw [List.length_cons, hlength] at hblock hproof
    exact ⟨hb, hp, append hrest hblock hproof⟩

theorem dropLast : ∀ {h : Nat} {pairs : List (Block × ConsensusProof)}, StoredFrom db h pairs →
    StoredFrom db h pairs.dropLast
  | _, [], _ => trivial
  | _, [_], _ => trivial
  | _, (_, _) :: _ :: _, ⟨hblock, hproof, hrest⟩ => ⟨hblock, hproof, dropLast hrest⟩

end StoredFrom

/-- The proof of a popped block is dropped by the zip. -/
theorem zip_dropLast {α β : Type} : ∀ l : List (α × β),
    (l.map Prod.fst).dropLast.zip (l.map Prod.snd) = l.dropLast
  | [] => rfl
  | [_] => rfl
  | x :: y :: l => by
    have ih := zip_dropLast (y :: l)
    simp only [List.map_cons, List.dropLast_cons_cons, List.zip_cons_cons] at ih ⊢
    rw [ih]

namespace Melstf

variable {M : Melstf Sealed Unsealed} {genesis : GenesisConfig}

theorem SharedOk.getBlock_eq {sh : Shared Unsealed} (hok : M.SharedOk genesis sh) (h : Nat) :
    sh.getBlock h = sh.db.block? h := by
  unfold Shared.getBlock
  cases hcache : sh.oldCache[h]? with
  | none => rfl
  | some blk =>
    rw [hok.cache hcache]
    rfl

/-- A storage at successive moments of a run. -/
structure Serves (M : Melstf Sealed Unsealed) (genesis : GenesisConfig)
    (server : Nat → Procs.Config Nat (Shared Unsealed) (Call Sealed)) : Prop where
  start : (M.storage genesis).lts.Reachable (server 0)
  next : ∀ tick, (M.storage genesis).lts.Reaches (server tick) (server (tick + 1))

namespace Serves

variable {server : Nat → Procs.Config Nat (Shared Unsealed) (Call Sealed)}

theorem reachable (hserver : M.Serves genesis server) (tick : Nat) :
    (M.storage genesis).lts.Reachable (server tick) := by
  induction tick with
  | zero => exact hserver.start
  | succ tick ih => exact ih.trans (hserver.next tick)

theorem sharedOk (hB : M.BuildsStates) (hserver : M.Serves genesis server) (tick : Nat) :
    M.SharedOk genesis (server tick).shared :=
  (storage_reachable hB (hserver.reachable tick)).1

theorem grows (hB : M.BuildsStates) (hserver : M.Serves genesis server) (tick k : Nat) :
    (server tick).shared.db.IsPrefix (server (tick + k)).shared.db := by
  induction k with
  | zero => exact ((hserver.sharedOk hB tick).chain.wellFormed hB).isPrefix_refl
  | succ k ih => exact ih.trans (storage_isPrefix hB (hserver.reachable _) (hserver.next _))

theorem isPrefix (hB : M.BuildsStates) (hserver : M.Serves genesis server) (tick : Nat) :
    (server 0).shared.db.IsPrefix (server tick).shared.db := by
  have h := hserver.grows hB 0 tick
  rwa [Nat.zero_add] at h

end Serves

/-- What a reply of `get_lz4_blocks` holds: blocks of consecutive heights from the requested one and
at least one, and their proofs in front of the other list. -/
structure Batch (db : Tables) (height : Nat) (accum : List Block)
    (proofAccum : List ConsensusProof) : Prop where
  nonempty : accum ≠ []
  fst : accum = (accum.zip proofAccum).map Prod.fst
  stored : StoredFrom db height (accum.zip proofAccum)

theorem Batch.of_pairs {db : Tables} {height : Nat} {pairs : List (Block × ConsensusProof)}
    (hne : pairs ≠ []) (hstored : StoredFrom db height pairs) :
    Batch db height (pairs.map Prod.fst) (pairs.map Prod.snd) := by
  have hzip : (pairs.map Prod.fst).zip (pairs.map Prod.snd) = pairs :=
    (List.zip_of_prod rfl rfl).symm
  refine ⟨by simpa using hne, ?_, ?_⟩
  · rw [hzip]
  · rw [hzip]
    exact hstored

theorem Batch.of_popped {db : Tables} {height : Nat} {pairs : List (Block × ConsensusProof)}
    (hlength : 1 < pairs.length) (hstored : StoredFrom db height pairs) :
    Batch db height (pairs.map Prod.fst).dropLast (pairs.map Prod.snd) := by
  refine ⟨?_, ?_, ?_⟩
  · intro hnil
    have := congrArg List.length hnil
    rw [List.length_dropLast, List.length_map, List.length_nil] at this
    omega
  · rw [zip_dropLast, List.map_dropLast]
  · rw [zip_dropLast]
    exact hstored.dropLast

/-- How the loop ends on the pairs it has read, the last of them past the limit or followed by a
missing block: the blocks and the proofs of the reply. -/
inductive BatchEnd {ω : Type} (W : Wire ω) (server : Nat → Shared Unsealed) (sizeLimit height : Nat) :
    List (Block × ConsensusProof) → List Block → List ConsensusProof → Prop where
  | complete {pairs : List (Block × ConsensusProof)} (hne : pairs ≠ [])
      (hfits : W.total pairs ≤ sizeLimit)
      (hend : ∃ tick, (server tick).getBlock (height + pairs.length) = none) :
      BatchEnd W server sizeLimit height pairs (pairs.map Prod.fst) (pairs.map Prod.snd)
  | first {pair : Block × ConsensusProof} (hbig : sizeLimit < W.total [pair]) :
      BatchEnd W server sizeLimit height [pair] [pair.1] [pair.2]
  | cut {pairs : List (Block × ConsensusProof)} {pair : Block × ConsensusProof} (hne : pairs ≠ [])
      (hfits : W.total pairs ≤ sizeLimit) (hbig : sizeLimit < W.total (pairs ++ [pair])) :
      BatchEnd W server sizeLimit height (pairs ++ [pair]) (pairs.map Prod.fst)
        ((pairs ++ [pair]).map Prod.snd)

theorem BatchEnd.batch {ω : Type} {W : Wire ω} {server : Nat → Shared Unsealed}
    {sizeLimit height : Nat} {pairs : List (Block × ConsensusProof)} {accum : List Block}
    {proofAccum : List ConsensusProof}
    (h : BatchEnd W server sizeLimit height pairs accum proofAccum) {db : Tables}
    (hstored : StoredFrom db height pairs) : Batch db height accum proofAccum := by
  cases h with
  | complete hne => exact Batch.of_pairs hne hstored
  | first => exact Batch.of_pairs (List.cons_ne_nil _ _) hstored
  | @cut pairs pair hne =>
    have hlength : 1 < (pairs ++ [pair]).length := by
      have := List.length_pos_of_ne_nil hne
      simp only [List.length_append, List.length_singleton]
      omega
    have hbatch := Batch.of_popped hlength hstored
    rwa [List.map_append, List.map_singleton, List.dropLast_concat] at hbatch

/-- **The loop ends**, when the block of the first height is stored, with the pairs it has read. -/
theorem batchLoop_ends (hB : M.BuildsStates) {ω : Type} {W : Wire ω} (hW : W.Lawful)
    {server : Nat → Procs.Config Nat (Shared Unsealed) (Call Sealed)}
    (hserver : M.Serves genesis server) {sizeLimit height : Nat} :
    ∀ {fuel tick : Nat} {pairs : List (Block × ConsensusProof)},
      W.total pairs ≤ sizeLimit → sizeLimit + 2 ≤ W.total pairs + fuel →
      StoredFrom (server tick).shared.db height pairs →
      (pairs = [] → 1 ≤ height ∧ height ≤ (server tick).shared.db.highestHeight) →
      ∃ read accum proofAccum k,
        batchLoop W (fun t => (server t).shared) sizeLimit fuel tick (height + pairs.length)
            (W.total pairs) (pairs.map Prod.fst) (pairs.map Prod.snd) =
          some (some (accum, proofAccum), tick + k) ∧
        StoredFrom (server (tick + k)).shared.db height read ∧
        BatchEnd W (fun t => (server t).shared) sizeLimit height read accum proofAccum := by
  intro fuel
  induction fuel with
  | zero =>
    intro tick pairs hle hfuel
    omega
  | succ fuel ih =>
    intro tick pairs hle hfuel hstored hfirst
    have hok := hserver.sharedOk hB tick
    unfold batchLoop
    rw [if_pos hle, hok.getBlock_eq]
    cases hblock : (server tick).shared.db.block? (height + pairs.length) with
    | none =>
      have hne : pairs ≠ [] := by
        intro hnil
        obtain ⟨h1, hheight⟩ := hfirst hnil
        obtain ⟨blk, hblk⟩ := (hok.chain.wellFormed hB).block_isSome h1 hheight
        rw [hnil, List.length_nil, Nat.add_zero, hblk] at hblock
        cases hblock
      refine ⟨pairs, _, _, 1, ?_, hstored.grows (hserver.grows hB tick 1), .complete hne hle ?_⟩
      · simp [hne]
      · exact ⟨tick, (hok.getBlock_eq _).trans hblock⟩
    | some block =>
      have hgrown := (hserver.grows hB tick 1).block? hblock
      have hwf := (hserver.sharedOk hB (tick + 1)).chain.wellFormed hB
      have hmem : height + pairs.length ∈ (server (tick + 1)).shared.db.consensusProofs := by
        rw [hwf.proof_mem, hwf.height_mem]
        exact hwf.block_le hgrown
      obtain ⟨proof, hproof⟩ :=
        Option.isSome_iff_exists.mp (Std.ExtTreeMap.mem_iff_isSome_getElem?.mp hmem)
      have hpairs : StoredFrom (server (tick + 2)).shared.db height
          (pairs ++ [(block, proof)]) := by
        refine (hstored.grows (hserver.grows hB tick 2)).append ?_ ?_
        · exact (hserver.grows hB tick 2).block? hblock
        · exact (hserver.grows hB (tick + 1) 1).keeps.proofs hproof
      have hget : ((server (tick + 1)).shared).getConsensus (height + pairs.length) = some proof :=
        hproof
      have hpos := hW.blockLen_pos block
      have htotal : W.total pairs + W.blockLen block + W.proofLen proof =
          W.total (pairs ++ [(block, proof)]) := by
        simp [Wire.total, Nat.add_assoc]
      have haccum : pairs.map Prod.fst ++ [block] = (pairs ++ [(block, proof)]).map Prod.fst := by
        rw [List.map_append]
        rfl
      have hproofs : pairs.map Prod.snd ++ [proof] = (pairs ++ [(block, proof)]).map Prod.snd := by
        rw [List.map_append]
        rfl
      have hlength : (pairs ++ [(block, proof)]).length = pairs.length + 1 := by simp
      simp only [hget]
      rw [haccum, hproofs, htotal, List.length_map, hlength, Nat.add_assoc height]
      rw [← hlength]
      by_cases hlimit : sizeLimit < W.total (pairs ++ [(block, proof)])
      · -- the limit is passed: the next round of the loop returns
        obtain ⟨fuel, rfl⟩ : ∃ f, fuel = f + 1 := ⟨fuel - 1, by omega⟩
        unfold batchLoop
        rw [if_neg (Nat.not_le.mpr hlimit)]
        by_cases hne : pairs = []
        · subst hne
          rw [if_neg fun h => absurd h.2 (by simp)]
          exact ⟨[(block, proof)], _, _, 2, rfl, hpairs, .first hlimit⟩
        · have hmany : 1 < (pairs ++ [(block, proof)]).length := by
            have := List.length_pos_of_ne_nil hne
            omega
          rw [if_pos ⟨hlimit, hmany⟩, List.map_append, List.map_singleton, List.dropLast_concat]
          exact ⟨pairs ++ [(block, proof)], _, _, 2, rfl, hpairs, .cut hne hle hlimit⟩
      · rw [if_neg fun h => hlimit h.1]
        obtain ⟨read, accum, proofAccum, k, heq, hread, hend⟩ :=
          ih (Nat.not_lt.mp hlimit) (by omega) hpairs (by simp)
        refine ⟨read, accum, proofAccum, 2 + k, ?_, ?_, hend⟩
        · rw [heq, Nat.add_assoc]
        · rw [← Nat.add_assoc]
          exact hread

/-- A request for a stored block is answered with the pairs the loop has read. -/
theorem getLz4Blocks_ends (hB : M.BuildsStates) {ω : Type} {W : Wire ω} (hW : W.Lawful)
    {server : Nat → Procs.Config Nat (Shared Unsealed) (Call Sealed)}
    (hserver : M.Serves genesis server) (tick : Nat) {height : Nat} (sizeLimit : Nat)
    (h1 : 1 ≤ height) (hheight : height ≤ (server tick).shared.db.highestHeight) :
    ∃ read accum proofAccum k,
      getLz4Blocks W (fun t => (server t).shared) tick height sizeLimit =
        some (some (W.encode (accum, proofAccum)), tick + k) ∧
      StoredFrom (server (tick + k)).shared.db height read ∧
      BatchEnd W (fun t => (server t).shared) (min sizeLimit 10000000) height read accum
        proofAccum := by
  have hzero : W.total [] ≤ min sizeLimit 10000000 := Nat.zero_le _
  have hfuel : min sizeLimit 10000000 + 2 ≤ W.total [] + (min sizeLimit 10000000 + 2) :=
    Nat.le_add_left _ _
  have hnone : StoredFrom (server tick).shared.db height [] := trivial
  obtain ⟨read, accum, proofAccum, k, heq, hread, hend⟩ :=
    batchLoop_ends hB hW hserver hzero hfuel hnone fun _ => ⟨h1, hheight⟩
  refine ⟨read, accum, proofAccum, k, ?_, hread, hend⟩
  have hloop : batchLoop W (fun t => (server t).shared) (min sizeLimit 10000000)
      (min sizeLimit 10000000 + 2) tick height 0 [] [] =
        some (some (accum, proofAccum), tick + k) := heq
  unfold getLz4Blocks
  dsimp only
  rw [hloop]
  rfl

/-- **A request is answered with a batch**, when the block of its height is stored. -/
theorem getLz4Blocks_spec (hB : M.BuildsStates) {ω : Type} {W : Wire ω} (hW : W.Lawful)
    {server : Nat → Procs.Config Nat (Shared Unsealed) (Call Sealed)}
    (hserver : M.Serves genesis server) {tick height : Nat} (sizeLimit : Nat) (h1 : 1 ≤ height)
    (hheight : height ≤ (server tick).shared.db.highestHeight) :
    ∃ accum proofAccum k,
      getLz4Blocks W (fun t => (server t).shared) tick height sizeLimit =
        some (some (W.encode (accum, proofAccum)), tick + k) ∧
      Batch (server (tick + k)).shared.db height accum proofAccum := by
  obtain ⟨read, accum, proofAccum, k, heq, hread, hend⟩ :=
    getLz4Blocks_ends hB hW hserver tick sizeLimit h1 hheight
  exact ⟨accum, proofAccum, k, heq, hend.batch hread⟩

end Melstf

end Melnode
