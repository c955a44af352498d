import Melnode.Storage.Invariant

/-!
# Conditions on accepted blocks

If every check that accepts a block in a run meets some condition, so does every stored block at
the state below it: the state a call was checked against is still the state of that height when its
transaction commits.
-/

namespace Melnode

open Lib

namespace Melstf

variable {Sealed Unsealed : Type} {M : Melstf Sealed Unsealed} {genesis : GenesisConfig}
variable {Q : Sealed → Block → ConsensusProof → Prop}

/-- What a step accepts: the state it checks against, the block and its proof. -/
def acceptedAt (M : Melstf Sealed Unsealed)
    (c : Procs.Config Nat (Shared Unsealed) (Call Sealed)) :
    (Nat × CallEvent) ⊕ StorageEvent Sealed → Option (Sealed × Block × ConsensusProof)
  | .inl (i, .check) =>
    match c.procs i with
    | .made blk cproof (.checking (.done s)) =>
      if (M.checkBlock s blk cproof).isOk then some (s, blk, cproof) else none
    | _ => none
  | _ => none

/-- If the step accepts a block, the condition is met. -/
def ChecksMeet (M : Melstf Sealed Unsealed) (Q : Sealed → Block → ConsensusProof → Prop)
    (c : Procs.Config Nat (Shared Unsealed) (Call Sealed))
    (label : (Nat × CallEvent) ⊕ StorageEvent Sealed) : Prop :=
  ∀ a ∈ M.acceptedAt c label, Q a.1 a.2.1 a.2.2

instance [∀ s blk cproof, Decidable (Q s blk cproof)]
    (c : Procs.Config Nat (Shared Unsealed) (Call Sealed))
    (label : (Nat × CallEvent) ⊕ StorageEvent Sealed) : Decidable (M.ChecksMeet Q c label) :=
  inferInstanceAs (Decidable (∀ a ∈ M.acceptedAt c label, Q a.1 a.2.1 a.2.2))

/-- Every stored block meets the condition at the state below it. -/
def StoredMeet (M : Melstf Sealed Unsealed) (genesis : GenesisConfig)
    (Q : Sealed → Block → ConsensusProof → Prop) (db : Tables) : Prop :=
  ∀ {h blk cproof s}, db.block? (h + 1) = some blk → db.consensusProofs[h + 1]? = some cproof →
    M.stateAt genesis db h = .ok s → Q s blk cproof

/-- The block met the condition at the state below it. -/
def AcceptedMeets (M : Melstf Sealed Unsealed) (genesis : GenesisConfig)
    (Q : Sealed → Block → ConsensusProof → Prop) (db : Tables) (blk : Block)
    (cproof : ConsensusProof) : Prop :=
  ∃ k s, k ≤ db.highestHeight ∧ blk.header.height = k + 1 ∧ M.stateAt genesis db k = .ok s ∧
    Q s blk cproof

/-- A call whose block was accepted met the condition. -/
def CallMeets (M : Melstf Sealed Unsealed) (genesis : GenesisConfig)
    (Q : Sealed → Block → ConsensusProof → Prop) (sh : Shared Unsealed) (_ : Nat) :
    Call Sealed → Prop
  | .made blk cproof .queued => M.AcceptedMeets genesis Q sh.db blk cproof
  | .made blk cproof .running => M.AcceptedMeets genesis Q sh.db blk cproof
  | .made blk cproof .orphan => M.AcceptedMeets genesis Q sh.db blk cproof
  | _ => True

section Meets

variable {sh sh' : Shared Unsealed}

theorem AcceptedMeets.grows {blk : Block} {cproof : ConsensusProof}
    (h : M.AcceptedMeets genesis Q sh.db blk cproof) (hG : Grows sh sh') :
    M.AcceptedMeets genesis Q sh'.db blk cproof := by
  obtain ⟨k, s, hk, hheight, hs, hQ⟩ := h
  refine ⟨k, s, Nat.le_trans hk hG.db.le, hheight, ?_, hQ⟩
  rw [stateAt_isPrefix hG.db hk]
  exact hs

theorem CallMeets.grows {i : Nat} {call : Call Sealed} (h : M.CallMeets genesis Q sh i call)
    (hG : Grows sh sh') : M.CallMeets genesis Q sh' i call := by
  cases call with
  | idle => trivial
  | made blk cproof phase =>
    cases phase with
    | queued => exact AcceptedMeets.grows h hG
    | running => exact AcceptedMeets.grows h hG
    | orphan => exact AcceptedMeets.grows h hG
    | _ => trivial

/-- Committing a block that met the condition. -/
theorem StoredMeet.commit (hB : M.BuildsStates) {db db' : Tables} {blk : Block}
    {cproof : ConsensusProof} (hchain : M.Chain genesis db) (hstored : M.StoredMeet genesis Q db)
    (hacc : M.Accepted genesis db blk cproof) (hmeets : M.AcceptedMeets genesis Q db blk cproof)
    (hins : M.insertBlock db blk cproof = some db') : M.StoredMeet genesis Q db' := by
  obtain ⟨hchain', hpre, -, -⟩ := hacc.insertBlock hB hchain hins
  have hinserted := insertBlock_inserted hins
  obtain ⟨k, s, hk, hheight, hs, hQ⟩ := hmeets
  intro h b proof t hb hproof ht
  rw [WellFormed.block?_inserted hinserted] at hb
  rw [hinserted.proofs] at hproof
  by_cases heq : blk.header.height = h + 1
  · -- the new block
    rw [if_pos heq] at hb hproof
    cases hb
    cases hproof
    obtain rfl : k = h := by omega
    rw [stateAt_isPrefix hpre hk, hs] at ht
    cases ht
    exact hQ
  · rw [if_neg heq] at hb hproof
    have hle := ((hchain.wellFormed hB).block_le hb).2
    rw [stateAt_isPrefix hpre (by omega)] at ht
    exact hstored hb hproof ht

/-- **One step of a call** in a run whose accepting checks meet the condition. -/
theorem CallStep.meets (hB : M.BuildsStates) (hok : M.SharedOk genesis sh) {i : Nat}
    {e : CallEvent} {call call' : Call Sealed} (hcall : M.CallOk genesis sh i call)
    (hgood : e = .check → ∀ blk cproof s s', call = .made blk cproof (.checking (.done s)) →
      M.checkBlock s blk cproof = .ok s' → Q s blk cproof)
    (hstored : M.StoredMeet genesis Q sh.db) (hmeets : M.CallMeets genesis Q sh i call)
    (hstep : M.CallStep genesis i sh e call sh' call') :
    M.StoredMeet genesis Q sh'.db ∧ M.CallMeets genesis Q sh' i call' := by
  cases hstep with
  | invoke => exact ⟨hstored, trivial⟩
  | acquire => exact ⟨hstored, trivial⟩
  | readCheck _ hr =>
    obtain ⟨-, -, hdb, -⟩ := hr.ok hok hcall
    rw [hdb]
    exact ⟨hstored, trivial⟩
  | @accept blk cproof s s' hcheck =>
    refine ⟨hstored, ?_⟩
    obtain ⟨k, hk, hs⟩ := hcall
    have hheight := (hok.chain.wellFormed hB).stateAt_height hB hs
    refine ⟨k, s, hk, ?_, hs, hgood rfl _ _ _ _ rfl hcheck⟩
    rw [← hheight]
    exact (checkBlock_ok_iff.mp hcheck).1
  | reject => exact ⟨hstored, trivial⟩
  | panic => exact ⟨hstored, trivial⟩
  | start => exact ⟨hstored, hmeets⟩
  | commit hins => exact ⟨hstored.commit hB hok.chain hcall hmeets hins, trivial⟩
  | orphanCommit hins => exact ⟨hstored.commit hB hok.chain hcall hmeets hins, trivial⟩
  | failQueued => exact ⟨hstored, trivial⟩
  | failRunning => exact ⟨hstored, trivial⟩
  | orphanFail => exact ⟨hstored, trivial⟩
  | readRebase _ hr =>
    obtain ⟨-, -, hdb, -⟩ := hr.ok hok hcall.1
    rw [hdb]
    exact ⟨hstored, trivial⟩
  | rebase => exact ⟨hstored, trivial⟩
  | dropWaiting => exact ⟨hstored, trivial⟩
  | dropRunning => exact ⟨hstored, hmeets⟩
  | dropChecking => exact ⟨hstored, trivial⟩
  | dropQueued => exact ⟨hstored, trivial⟩
  | dropRebasing => exact ⟨hstored, trivial⟩

theorem CallMeets.ended {i : Nat} {call : Call Sealed} (d : StorageEvent Sealed)
    (h : M.CallMeets genesis Q sh i call) : M.CallMeets genesis Q sh i (ended d call) := by
  cases d with
  | reopen =>
    cases call with
    | idle => exact h
    | made blk cproof phase =>
      cases phase with
      | returned res => exact h
      | _ => trivial
  | _ => exact h

end Meets

theorem storage_meets_outline (hB : M.BuildsStates) :
    (M.storage genesis).Outline (M.ChecksMeet Q) (fun sh => M.StoredMeet genesis Q sh.db)
      (M.CallMeets genesis Q) fun _ => Grows where
  init {sh} hinit := by
    have hopen : sh = M.openStorage genesis Tables.fresh ∅ := hinit
    subst hopen
    intro h blk cproof s hblk
    have hchain : M.Chain genesis (Tables.opened genesis Tables.fresh) := Chain.opened
    have hle := (hchain.wellFormed hB).block_le hblk
    rw [Chain.highestHeight_opened] at hle
    omega
  start _ := trivial
  step {c i e _ _} hreach hgood hstored hmeets hstep := by
    obtain ⟨hok, hcalls⟩ := storage_reachable hB hreach.of_guard
    obtain ⟨-, hcases⟩ := callStep_cases hstep
    have hgood' : e = .check → ∀ blk cproof s s', c.procs i = .made blk cproof (.checking (.done s)) →
        M.checkBlock s blk cproof = .ok s' → Q s blk cproof := by
      rintro rfl blk cproof s s' hproc hcheck
      apply hgood (s, blk, cproof)
      simp only [acceptedAt, hproc, hcheck]
      rfl
    obtain ⟨hstored', hmeets'⟩ := hcases.meets hB hok (hcalls i) hgood' hstored hmeets
    exact ⟨hstored', hmeets', (hcases.ok hB hok (hcalls i)).2.2⟩
  stable _ _ hG h := h.grows hG
  env {c d _} hreach _ hstored hmeets hstep := by
    obtain ⟨hok, -⟩ := storage_reachable hB hreach.of_guard
    obtain ⟨-, hdb, hcommitter⟩ := storageStep_same hB hok hstep
    refine ⟨?_, fun i => ((hmeets i).grows (hok.grows_of_same hB hdb hcommitter)).ended _⟩
    rw [hdb]
    exact hstored

/-- **Conditions carry over**: where every accepting check of a run meets a condition, every stored
block meets it at the state below. -/
theorem storedMeet_of_checks (hB : M.BuildsStates)
    {c : Procs.Config Nat (Shared Unsealed) (Call Sealed)}
    (hc : ((M.storage genesis).lts.guard (M.ChecksMeet Q)).Reachable c) :
    M.StoredMeet genesis Q c.shared.db :=
  ((storage_meets_outline hB).reachable hc).1

end Melstf

end Melnode
