import Melnode.Storage.Invariant

/-!
# Reopening a storage

`Storage::open` finds the rows of an earlier run as they were. Its mempool is built on
`genesis.realize(..)`, a state that is sealed at height 0, where every rebase builds it on the
successor of a sealed state: it is never on the successor of the highest state until the next block
comes (`reopen_restores_never`).
-/

namespace Melnode

open Lib

namespace Melstf

variable {Sealed Unsealed : Type} {M : Melstf Sealed Unsealed} {genesis : GenesisConfig}

/-- What an open storage should be, given the rows it was closed with. -/
structure Restores (M : Melstf Sealed Unsealed) (genesis : GenesisConfig) (db : Tables)
    (sh : Shared Unsealed) : Prop where
  rows : sh.db = db
  highest : M.highestState genesis sh.db = M.highestState genesis db
  mempool : ∃ s, M.highestState genesis sh.db = .ok s ∧
    sh.mempool.provisionalState = M.nextUnsealed s

/-- The state a mempool starts on is no successor of a sealed state. -/
theorem realize_ne_nextUnsealed (hB : M.BuildsStates) (hC : M.ChecksHeader) (hP : M.BuildsBlocks)
    (s : Sealed) : M.realize genesis ≠ M.nextUnsealed s := by
  intro heq
  have hnone : ∀ state : Unsealed, ([] : List Transaction).foldlM M.applyTx state = .ok state :=
    fun _ => rfl
  have hzero := hP.realize_height hB (hnone (M.realize genesis))
  have hnext := hP.sealed_height hC (hnone (M.nextUnsealed s))
  rw [← heq, hzero] at hnext
  omega

/-- A reopened storage has the rows it was closed with. -/
theorem exec_reopen (hB : M.BuildsStates) {c c' : Procs.Config Nat (Shared Unsealed) (Call Sealed)}
    (hc : (M.storage genesis).lts.Reachable c)
    (hopen : (M.storage genesis).exec c (.inr .reopen) = some c') :
    c'.shared.db = c.shared.db ∧ c'.shared.mempool = Mempool.new (M.realize genesis) := by
  obtain ⟨hok, -⟩ := storage_reachable hB hc
  obtain ⟨sh', hstep, rfl⟩ := Procs.exec_env.mp hopen
  have hstep' : M.storageStep genesis .reopen c.shared = some sh' := hstep
  obtain ⟨-, hdb, -⟩ := storageStep_same hB hok hstep'
  refine ⟨hdb, ?_⟩
  simp only [storageStep] at hstep'
  split at hstep'
  · cases hstep'
    rfl
  · cases hstep'

/-- **A restart never brings back the mempool.** Whatever run left the directory, opening it again
finds the same rows and the same highest state, and a mempool that is not on its successor. -/
theorem reopen_restores_never (hB : M.BuildsStates) (hC : M.ChecksHeader) (hP : M.BuildsBlocks)
    {c c' : Procs.Config Nat (Shared Unsealed) (Call Sealed)}
    (hc : (M.storage genesis).lts.Reachable c)
    (hopen : (M.storage genesis).exec c (.inr .reopen) = some c') :
    c'.shared.db = c.shared.db ∧
      M.highestState genesis c'.shared.db = M.highestState genesis c.shared.db ∧
      ¬ M.Restores genesis c.shared.db c'.shared := by
  obtain ⟨hdb, hmempool⟩ := exec_reopen hB hc hopen
  refine ⟨hdb, by rw [hdb], fun h => ?_⟩
  obtain ⟨s, -, hprovisional⟩ := h.mempool
  rw [hmempool] at hprovisional
  exact realize_ne_nextUnsealed hB hC hP s hprovisional

/-! ## The three-staker network after its first block -/

/-- The network closed after its first block. -/
def closedFirst : Procs.Config Nat (Shared Ledger.Unsealed) (Call Ledger.Sealed) :=
  ledger.storageAfter Ledger.threeStakers
    (soloCall 0 0 (Ledger.firstBlock 1) (Ledger.proofBy [1, 2, 3] (Ledger.firstBlock 1)) ++
      [.inr .kill])

/-- And open again. -/
def reopenedFirst : Procs.Config Nat (Shared Ledger.Unsealed) (Call Ledger.Sealed) :=
  (((ledger.storage Ledger.threeStakers).exec closedFirst (.inr .reopen)).getD closedFirst)

theorem reopenedFirst_exec : (ledger.storage Ledger.threeStakers).exec closedFirst (.inr .reopen) =
    some reopenedFirst := by
  have hopen : ((ledger.storage Ledger.threeStakers).exec closedFirst (.inr .reopen)).isSome = true := by
    decide +kernel
  obtain ⟨c', hc'⟩ := Option.isSome_iff_exists.mp hopen
  unfold reopenedFirst
  rw [hc']
  rfl

theorem reopen_restores_never_first :
    reopenedFirst.shared.db = closedFirst.shared.db ∧
      ledger.highestState Ledger.threeStakers reopenedFirst.shared.db =
        ledger.highestState Ledger.threeStakers closedFirst.shared.db ∧
      ¬ ledger.Restores Ledger.threeStakers closedFirst.shared.db reopenedFirst.shared :=
  reopen_restores_never ledger_builds ledger_checks ledger_proposes
    (storageAfter_reachable _ _ (by decide +kernel)) reopenedFirst_exec

/-- After the restart the chain is at height 1 and the mempool at height 0. -/
theorem reopen_genesisMempool :
    (ledger.highestState Ledger.threeStakers reopenedFirst.shared.db).map
        (fun s => (ledger.header s).height) = .ok 1 ∧
      (ledger.header (ledger.sealState reopenedFirst.shared.mempool.toState none)).height = 0 ∧
      ∀ s, reopenedFirst.shared.mempool.provisionalState ≠ ledger.nextUnsealed s := by
  refine ⟨by decide +kernel, by decide +kernel, fun s heq => ?_⟩
  have hzero : (ledger.header (ledger.sealState reopenedFirst.shared.mempool.provisionalState
      none)).height = 0 := by decide +kernel
  rw [heq] at hzero
  exact absurd hzero (Nat.succ_ne_zero s.header.height)

end Melstf

end Melnode
