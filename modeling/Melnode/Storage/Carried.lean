import Melnode.Storage.Forks

/-!
# What calls carry and rows hold

A row is inserted by a call, with the block and the proof the call was made with. So a condition on
every block and proof that is handed to `apply_block` holds of every row (`Carries.exec`).
-/

namespace Melnode

open Lib

namespace Melstf

variable {Sealed Unsealed : Type} {M : Melstf Sealed Unsealed} {genesis : GenesisConfig}
  {P Q : Block → ConsensusProof → Prop}

/-- Every block meets a condition with its proof: in the calls and in the rows. -/
structure Carries (P : Block → ConsensusProof → Prop)
    (c : Procs.Config Nat (Shared Unsealed) (Call Sealed)) : Prop where
  calls : ∀ {i : Nat} {blk : Block} {cproof : ConsensusProof} {phase : Phase Sealed},
    c.procs i = .made blk cproof phase → P blk cproof
  rows : ∀ {h : Nat} {blk : Block} {cproof : ConsensusProof}, c.shared.db.block? h = some blk →
    c.shared.db.consensusProofs[h]? = some cproof → P blk cproof

theorem Carries.mono {c : Procs.Config Nat (Shared Unsealed) (Call Sealed)} (h : Carries P c)
    (hPQ : ∀ blk cproof, P blk cproof → Q blk cproof) : Carries Q c :=
  ⟨fun hcall => hPQ _ _ (h.calls hcall), fun hblk hproof => hPQ _ _ (h.rows hblk hproof)⟩

theorem Carries.fresh : Carries P (M.freshStorage genesis) := by
  refine ⟨fun hcall => ?_, fun hblk => ?_⟩
  · cases hcall
  · obtain ⟨row, hrow, -⟩ := block?_eq_some.mp hblk
    exact absurd hrow Table.getElem?_empty_ne

section Steps

variable {sh sh' : Shared Unsealed} {i : Nat} {e : CallEvent} {call call' : Call Sealed}

/-- A call keeps the block and the proof it was made with. -/
theorem CallStep.carried (h : M.CallStep genesis i sh e call sh' call') {blk : Block}
    {cproof : ConsensusProof} {phase : Phase Sealed} (hcall : call' = .made blk cproof phase) :
    e = .invoke blk cproof ∨ ∃ phase', call = .made blk cproof phase' := by
  cases h with
  | invoke =>
    cases hcall
    exact Or.inl rfl
  | _ =>
    cases hcall
    exact Or.inr ⟨_, rfl⟩

theorem ReadStep.db_eq {r r' : Reading Sealed} (h : M.ReadStep genesis sh r sh' r') :
    sh'.db = sh.db := by
  cases h <;> rfl

/-- The rows change by a commit only, of what the call carries. -/
theorem CallStep.inserts (h : M.CallStep genesis i sh e call sh' call') :
    sh'.db = sh.db ∨ ∃ blk cproof phase, call = .made blk cproof phase ∧
      M.insertBlock sh.db blk cproof = some sh'.db := by
  cases h with
  | commit hins => exact Or.inr ⟨_, _, _, rfl, hins⟩
  | orphanCommit hins => exact Or.inr ⟨_, _, _, rfl, hins⟩
  | readCheck _ hr => exact Or.inl hr.db_eq
  | readRebase _ hr => exact Or.inl hr.db_eq
  | _ => exact Or.inl rfl

theorem ended_carried {d : StorageEvent Sealed} {blk : Block} {cproof : ConsensusProof}
    {phase : Phase Sealed} (h : ended d call = .made blk cproof phase) :
    ∃ phase', call = .made blk cproof phase' := by
  unfold ended at h
  split at h
  · cases h
    exact ⟨_, rfl⟩
  · cases h
    exact ⟨_, rfl⟩
  · exact ⟨phase, h⟩

/-- **One step** keeps the condition, when a call that is made meets it. -/
theorem Carries.exec (hB : M.BuildsStates)
    {c c' : Procs.Config Nat (Shared Unsealed) (Call Sealed)}
    {label : (Nat × CallEvent) ⊕ StorageEvent Sealed} (hok : M.SharedOk genesis c.shared)
    (h : Carries P c) (hexec : (M.storage genesis).exec c label = some c')
    (hinvoke : ∀ i blk cproof, label = .inl (i, .invoke blk cproof) → P blk cproof) :
    Carries P c' := by
  cases label with
  | inl call =>
    obtain ⟨j, e⟩ := call
    obtain ⟨sh, l, hstep, rfl⟩ := Procs.exec_proc.mp hexec
    obtain ⟨-, hcases⟩ := callStep_cases hstep
    refine ⟨fun {k blk cproof phase} hcall => ?_, fun {k blk cproof} hblk hproof => ?_⟩
    · by_cases hk : k = j
      · subst hk
        have hl : l = .made blk cproof phase := by simpa using hcall
        rcases hcases.carried hl with rfl | ⟨phase', hphase⟩
        · exact hinvoke _ _ _ rfl
        · exact h.calls hphase
      · have hold : c.procs k = .made blk cproof phase := by simpa [hk] using hcall
        exact h.calls hold
    · rcases hcases.inserts with hdb | ⟨b, proof, phase, hcall, hins⟩
      · have hdb' : sh.db = c.shared.db := hdb
        rw [hdb'] at hblk hproof
        exact h.rows hblk hproof
      · have hinserted := insertBlock_inserted hins
        rw [WellFormed.block?_inserted hinserted] at hblk
        rw [hinserted.proofs] at hproof
        by_cases hk : b.header.height = k
        · rw [if_pos hk] at hblk hproof
          cases hblk
          cases hproof
          exact h.calls hcall
        · rw [if_neg hk] at hblk hproof
          exact h.rows hblk hproof
  | inr d =>
    obtain ⟨sh, hstep, rfl⟩ := Procs.exec_env.mp hexec
    have hstep' : M.storageStep genesis d c.shared = some sh := hstep
    obtain ⟨-, hdb, -⟩ := storageStep_same hB hok hstep'
    refine ⟨fun {k blk cproof phase} hcall => ?_, fun hblk hproof => ?_⟩
    · have hended : ended d (c.procs k) = .made blk cproof phase := hcall
      obtain ⟨phase', hphase⟩ := ended_carried hended
      exact h.calls hphase
    · rw [hdb] at hblk hproof
      exact h.rows hblk hproof

end Steps

end Melstf

end Melnode
