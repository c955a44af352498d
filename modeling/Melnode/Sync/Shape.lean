import Melnode.Sync.Blksync

/-!
# The shape of a block batch

On a storage that does not change, a reply of `get_lz4_blocks` is the longest run of stored blocks
from the requested height that fits the limit, each with its proof, unless the loop has to cut the
batch back: then it takes the last block out and leaves its proof (`lz4Blocks_shape_iff`).
-/

namespace Melnode

open Lib

section Shape

variable {ω : Type} (W : Wire ω) (db : Tables) (height sizeLimit : Nat)

/-- What a reply should hold: as many blocks as proofs, those stored from `height` on, one pair or a
total within the limit, and no more of them fit. -/
structure BatchShape (blocks : List Block) (proofs : List ConsensusProof) : Prop where
  length_eq : blocks.length = proofs.length
  nonempty : blocks ≠ []
  stored : StoredFrom db height (blocks.zip proofs)
  fits : blocks.length = 1 ∨ W.total (blocks.zip proofs) ≤ sizeLimit
  largest : ∀ pairs, StoredFrom db height pairs →
    pairs.length = 1 ∨ W.total pairs ≤ sizeLimit → pairs.length ≤ blocks.length

/-- If the first block and its proof fit the limit, everything stored from there on does. -/
def Uncut : Prop :=
  ∀ first rest, StoredFrom db height (first :: rest) → W.total [first] ≤ sizeLimit →
    W.total (first :: rest) ≤ sizeLimit

variable {W db height sizeLimit}

theorem Wire.total_append (pairs rest : List (Block × ConsensusProof)) :
    W.total (pairs ++ rest) = W.total pairs + W.total rest := by
  simp [Wire.total]

/-- Two stored runs from one height agree as far as both go. -/
theorem StoredFrom.isPrefix : ∀ {h : Nat} {pairs pairs' : List (Block × ConsensusProof)},
    StoredFrom db h pairs → StoredFrom db h pairs' → pairs.length ≤ pairs'.length →
      ∃ rest, pairs' = pairs ++ rest
  | _, [], pairs', _, _, _ => ⟨pairs', rfl⟩
  | h, (b, p) :: pairs, [], _, _, hle => absurd hle (by simp)
  | h, (b, p) :: pairs, (b', p') :: pairs', ⟨hb, hp, hrest⟩, ⟨hb', hp', hrest'⟩, hle => by
    obtain ⟨rest, rfl⟩ := hrest.isPrefix hrest' (by simpa using hle)
    obtain rfl : b = b' := Option.some.inj (hb.symm.trans hb')
    obtain rfl : p = p' := Option.some.inj (hp.symm.trans hp')
    exact ⟨rest, rfl⟩

/-- A run ends before the first missing block. -/
theorem StoredFrom.length_le : ∀ {h n : Nat} {pairs : List (Block × ConsensusProof)},
    StoredFrom db h pairs → db.block? (h + n) = none → pairs.length ≤ n
  | _, _, [], _, _ => Nat.zero_le _
  | h, 0, (_, _) :: _, ⟨hb, _, _⟩, hnone => by
    rw [Nat.add_zero, hb] at hnone
    cases hnone
  | h, n + 1, (_, _) :: pairs, ⟨_, _, hrest⟩, hnone => by
    have hnone' : db.block? (h + 1 + n) = none := by
      rw [← hnone]
      congr 1
      omega
    have := hrest.length_le hnone'
    simp only [List.length_cons]
    omega

/-- Nothing is cut where all that is stored fits. -/
theorem uncut_of_total {pairs : List (Block × ConsensusProof)}
    (hstored : StoredFrom db height pairs) (hnone : db.block? (height + pairs.length) = none)
    (hfits : W.total pairs ≤ sizeLimit) : Uncut W db height sizeLimit := by
  intro first rest hrun _
  obtain ⟨tail, heq⟩ := hrun.isPrefix hstored (hrun.length_le hnone)
  rw [heq, Wire.total_append] at hfits
  omega

theorem zip_map (pairs : List (Block × ConsensusProof)) :
    (pairs.map Prod.fst).zip (pairs.map Prod.snd) = pairs :=
  (List.zip_of_prod rfl rfl).symm

/-- A longer run that fits is no longer than one that cannot be extended within the limit. -/
theorem StoredFrom.length_le_of_total {pairs pairs' : List (Block × ConsensusProof)}
    {pair : Block × ConsensusProof} (hstored : StoredFrom db height (pairs ++ [pair]))
    (hbig : sizeLimit < W.total (pairs ++ [pair])) (hstored' : StoredFrom db height pairs')
    (hfits : W.total pairs' ≤ sizeLimit) : pairs'.length ≤ pairs.length := by
  by_contra hlt
  obtain ⟨rest, rfl⟩ := hstored.isPrefix hstored' (by
    simp only [List.length_append, List.length_singleton]
    omega)
  rw [Wire.total_append] at hfits
  omega

end Shape

namespace Melstf

variable {Sealed Unsealed : Type} {M : Melstf Sealed Unsealed} {genesis : GenesisConfig}

/-- A reply with the right shape was not cut, and one that was not cut has the right shape. -/
theorem BatchEnd.shape_iff {ω : Type} {W : Wire ω} {sh : Shared Unsealed}
    (hok : M.SharedOk genesis sh) {sizeLimit height : Nat}
    {read : List (Block × ConsensusProof)} {blocks : List Block} {proofs : List ConsensusProof}
    (hend : BatchEnd W (fun _ => sh) sizeLimit height read blocks proofs)
    (hread : StoredFrom sh.db height read) :
    BatchShape W sh.db height sizeLimit blocks proofs ↔ Uncut W sh.db height sizeLimit := by
  cases hend with
  | complete hne hfits hmissing =>
    obtain ⟨_, hnone⟩ := hmissing
    rw [hok.getBlock_eq] at hnone
    refine ⟨fun _ => uncut_of_total hread hnone hfits,
      fun _ => ⟨by simp, by simpa using hne, ?_, ?_, ?_⟩⟩
    · rwa [zip_map]
    · right
      rwa [zip_map]
    · intro pairs hpairs _
      simpa using hpairs.length_le hnone
  | @first pair hbig =>
    refine ⟨fun _ first rest hstored hfirst => ?_, fun _ => ⟨rfl, by simp, hread, Or.inl rfl, ?_⟩⟩
    · obtain ⟨tail, heq⟩ := hread.isPrefix hstored (by simp)
      cases heq
      omega
    · intro pairs hpairs hfits
      rcases hfits with hone | hfits
      · exact Nat.le_of_eq hone
      · have hread' : StoredFrom sh.db height ([] ++ [pair]) := hread
        have hle : pairs.length ≤ 0 := hread'.length_le_of_total hbig hpairs hfits
        exact Nat.le_succ_of_le hle
  | @cut pairs pair hne hfits hbig =>
    refine ⟨fun hshape => absurd hshape.length_eq (by simp), fun huncut => ?_⟩
    obtain ⟨first, rest, rfl⟩ := List.exists_cons_of_ne_nil hne
    have hfirst : W.total [first] ≤ W.total (first :: rest) := by
      rw [← List.singleton_append, Wire.total_append]
      exact Nat.le_add_right _ _
    have hall := huncut first (rest ++ [pair]) hread (Nat.le_trans hfirst hfits)
    rw [List.cons_append] at hbig
    exact absurd hall (Nat.not_le.mpr hbig)

/-- A request for a missing block is answered with `None`. -/
theorem getLz4Blocks_none {ω : Type} {W : Wire ω} {sh : Shared Unsealed}
    (hok : M.SharedOk genesis sh) {height : Nat} (hnone : sh.db.block? height = none)
    (sizeLimit : Nat) : getLz4Blocks W (fun _ => sh) 0 height sizeLimit = some (none, 1) := by
  unfold getLz4Blocks batchLoop
  simp [hok.getBlock_eq, hnone]

/-- **The shape of a block batch.** On a storage that does not change, `get_lz4_blocks` answers
`None` exactly when no block is stored at the start height, and its batch has the right shape exactly
when the batch did not have to be cut back: the first block with its proof exceeds the limit, or all
that is stored from there on fits it. -/
theorem lz4Blocks_shape_iff (hB : M.BuildsStates) {ω : Type} {W : Wire ω} (hW : W.Lawful)
    {c : Procs.Config Nat (Shared Unsealed) (Call Sealed)}
    (hc : (M.storage genesis).lts.Reachable c) {height : Nat} (_ : height < 2 ^ 63)
    (sizeLimit : Nat) :
    (∀ reply tick, getLz4Blocks W (fun _ => c.shared) 0 height sizeLimit = some (reply, tick) →
      (reply = none ↔ c.shared.db.block? height = none) ∧
        ∀ compressed, reply = some compressed → ∃ blocks proofs,
          W.decode compressed = some (blocks, proofs) ∧
            BatchShape W c.shared.db height (min sizeLimit 10000000) blocks proofs) ↔
      Uncut W c.shared.db height (min sizeLimit 10000000) := by
  obtain ⟨hok, -⟩ := storage_reachable hB hc
  have hwf := hok.chain.wellFormed hB
  cases hblock : c.shared.db.block? height with
  | none =>
    have hcall := getLz4Blocks_none (W := W) hok hblock sizeLimit
    constructor
    · rintro - first rest ⟨hfirst, -⟩
      rw [hblock] at hfirst
      cases hfirst
    · rintro - reply tick hreply
      rw [hcall] at hreply
      cases hreply
      exact ⟨by simp, nofun⟩
  | some block =>
    obtain ⟨h1, hheight⟩ := hwf.block_le hblock
    have hserver : M.Serves genesis fun _ => c := ⟨hc, fun _ => Lts.Reaches.refl _⟩
    obtain ⟨read, blocks, proofs, k, hcall, hread, hend⟩ :=
      getLz4Blocks_ends hB hW hserver 0 sizeLimit h1 hheight
    have hshape := hend.shape_iff hok hread
    rw [← hshape]
    constructor
    · intro hall
      obtain ⟨-, hdecodes⟩ := hall _ _ hcall
      obtain ⟨blocks', proofs', hdecode, hbatch⟩ := hdecodes _ rfl
      rw [hW.decode_encode] at hdecode
      cases hdecode
      exact hbatch
    · intro hbatch reply tick hreply
      rw [hcall] at hreply
      cases hreply
      refine ⟨by simp, ?_⟩
      rintro compressed heq
      cases heq
      exact ⟨blocks, proofs, hW.decode_encode _, hbatch⟩

end Melstf

/-! ## Two blocks of the three-staker network -/

namespace Ledger

/-- The block after the first. -/
def secondBlock : Block :=
  match applyBlock (ledger.genesisState threeStakers) (firstBlock 1) with
  | .ok s => blockOn s [payment 2]
  | .error _ => firstBlock 1

/-- The network after two blocks. -/
def bothBlocks : Procs.Config Nat (Shared Unsealed) (Call Sealed) :=
  ledger.storageAfter threeStakers
    (Melstf.soloCall 0 0 (firstBlock 1) (proofBy [1, 2, 3] (firstBlock 1)) ++
      Melstf.soloCall 1 1 secondBlock (proofBy [1, 2, 3] secondBlock))

theorem bothBlocks_reachable : (ledger.storage threeStakers).lts.Reachable bothBlocks := by
  unfold bothBlocks
  exact Melstf.storageAfter_reachable _ _ (by decide +kernel)

/-- The two blocks with their proofs. -/
def bothPairs : List (Block × ConsensusProof) :=
  [(firstBlock 1, proofBy [1, 2, 3] (firstBlock 1)),
    (secondBlock, proofBy [1, 2, 3] secondBlock)]

theorem bothPairs_stored : StoredFrom bothBlocks.shared.db 1 bothPairs := by
  refine ⟨by decide +kernel, by decide +kernel, by decide +kernel, by decide +kernel, trivial⟩

end Ledger

namespace Melstf

/-- With a large limit both blocks come with their proofs. -/
theorem lz4Blocks_shape_iff_bothBlocks :
    ∃ blocks proofs tick,
      getLz4Blocks Ledger.wire (fun _ => Ledger.bothBlocks.shared) 0 1 500000 =
        some (some (blocks, proofs), tick) ∧
      BatchShape Ledger.wire Ledger.bothBlocks.shared.db 1 500000 blocks proofs := by
  have huncut : Uncut Ledger.wire Ledger.bothBlocks.shared.db 1 (min 500000 10000000) :=
    uncut_of_total Ledger.bothPairs_stored (by decide +kernel) (by decide +kernel)
  have hall := (lz4Blocks_shape_iff ledger_builds Ledger.wire_lawful Ledger.bothBlocks_reachable
    (by decide) 500000).mpr huncut
  have hreply : ((getLz4Blocks Ledger.wire (fun _ => Ledger.bothBlocks.shared) 0 1 500000).bind
      Prod.fst).isSome = true := by decide +kernel
  obtain ⟨x, hx⟩ := Option.isSome_iff_exists.mp hreply
  obtain ⟨⟨reply, tick⟩, hcall, hsome⟩ := Option.bind_eq_some_iff.mp hx
  obtain ⟨-, hdecodes⟩ := hall reply tick hcall
  obtain ⟨blocks, proofs, hdecode, hshape⟩ := hdecodes x hsome
  refine ⟨blocks, proofs, tick, ?_, hshape⟩
  rw [hcall]
  cases hdecode
  rw [show reply = some (blocks, proofs) from hsome]

/-- With a limit between one block and two, the reply has one block and two proofs. -/
theorem lz4Blocks_shape_cut :
    (ledger.storage Ledger.threeStakers).lts.Reachable Ledger.bothBlocks ∧
      (getLz4Blocks Ledger.wire (fun _ => Ledger.bothBlocks.shared) 0 1 600).map
          (fun answer => answer.1.map fun x => (x.1.length, x.2.length)) =
        some (some (1, 2)) :=
  ⟨Ledger.bothBlocks_reachable, by decide +kernel⟩

end Melstf

end Melnode
