import Melnode.Storage.Forks

/-!
# Tables with the same blocks

What `get_state` rebuilds for a height is told by the genesis and by the blocks up to it: the proofs
beside the blocks do not matter, and the rows of `stakes` come from the blocks.
-/

namespace Melnode

open Lib

namespace Melstf

variable {Sealed Unsealed : Type} {M : Melstf Sealed Unsealed} {genesis : GenesisConfig}

/-- The tables hold the same blocks up to a height. -/
def SameBlocksTo (db db' : Tables) (h : Nat) : Prop := ∀ k ≤ h, db.block? k = db'.block? k

section Same

variable {db db' : Tables} {h k : Nat}

theorem SameBlocksTo.mono (hsame : SameBlocksTo db db' h) (hk : k ≤ h) : SameBlocksTo db db' k :=
  fun j hj => hsame j (Nat.le_trans hj hk)

theorem SameBlocksTo.symm (hsame : SameBlocksTo db db' h) : SameBlocksTo db' db h :=
  fun k hk => (hsame k hk).symm

theorem SameBlocksTo.trans {db'' : Tables} (h₁ : SameBlocksTo db db' h)
    (h₂ : SameBlocksTo db' db'' h) : SameBlocksTo db db'' h :=
  fun k hk => (h₁ k hk).trans (h₂ k hk)

/-- The rows of `stakes` come from the genesis and the blocks. -/
theorem SameBlocksTo.rows (hwf : M.WellFormed genesis db) (hwf' : M.WellFormed genesis db')
    (hsame : SameBlocksTo db db' h) : SameRowsTo db db' h := by
  intro t row hrow
  rw [hwf.stake_row, hwf'.stake_row, hsame _ hrow]

/-- **The blocks determine the states.** -/
theorem SameBlocksTo.stateAt (hwf : M.WellFormed genesis db) (hwf' : M.WellFormed genesis db')
    (hsame : SameBlocksTo db db' h) : M.stateAt genesis db h = M.stateAt genesis db' h := by
  have hstakes : M.getStakeset genesis db' h = M.getStakeset genesis db h :=
    getStakeset_congr (hsame.rows hwf hwf')
  unfold Melstf.stateAt getState
  rw [hsame h (Nat.le_refl _), hstakes]

/-- Two chains whose stored headers agree, and whose headers tell their blocks, hold the same
blocks. -/
theorem SameBlocksTo.of_headers (hwf : M.WellFormed genesis db) (hwf' : M.WellFormed genesis db')
    (hh : h ≤ db.highestHeight) (hh' : h ≤ db'.highestHeight)
    (hblocks : ∀ {j : Nat} {blk blk' : Block}, j ≤ h → db.block? j = some blk →
      db'.block? j = some blk' → blk = blk') : SameBlocksTo db db' h := by
  intro j hj
  rcases Nat.eq_zero_or_pos j with rfl | hpos
  · have hnone : ∀ {t : Tables}, M.WellFormed genesis t → t.block? 0 = none := by
      intro t hwft
      cases hblk : t.block? 0 with
      | none => rfl
      | some blk => exact absurd (hwft.block_le hblk).1 (by decide)
    rw [hnone hwf, hnone hwf']
  · obtain ⟨blk, hblk⟩ := hwf.block_isSome hpos (Nat.le_trans hj hh)
    obtain ⟨blk', hblk'⟩ := hwf'.block_isSome hpos (Nat.le_trans hj hh')
    rw [hblk, hblk', hblocks hj hblk hblk']

end Same

end Melstf

end Melnode
