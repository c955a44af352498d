import Melnode.Storage.Submit

/-!
# The books of a mempool

The provisional state, the weight and the recorded hashes of a mempool are all about the transactions
it accepted since the last rebase. `Bookkept` says how, and every submission and rebase keeps it. The
weight is looked at before a transaction is accepted, so the last one may go over the limit, and
nothing is accepted after it.
-/

namespace Melnode

open Lib

namespace Melstf

variable {Sealed Unsealed : Type}

/-- The fields of a mempool are about the transactions it accepted, of which the last one is the
first of the list. -/
structure Bookkept (M : Melstf Sealed Unsealed) (t : Submissions Unsealed) : Prop where
  provisional : t.accepted.reverse.foldlM M.applyTx t.mempool.lastRebase =
    .ok t.mempool.provisionalState
  weight : t.mempool.nextWeight = (t.accepted.map M.weight).sum
  nodup : (t.accepted.map M.hashNosigs).Nodup
  recorded : ∀ tx ∈ t.accepted, M.hashNosigs tx ∈ t.mempool.txxInState
  room : ∀ last before, t.accepted = last :: before → (before.map M.weight).sum < weightLimit

/-- What is sealed on transactions applied to the successor of a state lists them. -/
def ListsTransactions (M : Melstf Sealed Unsealed) : Prop :=
  ∀ {s : Sealed} {txs : List Transaction} {state : Unsealed} (action : Option ProposerAction),
    txs.foldlM M.applyTx (M.nextUnsealed s) = .ok state →
      (M.toBlock (M.sealState state action)).transactions.Perm txs

variable {M : Melstf Sealed Unsealed} {t t' : Submissions Unsealed}

theorem Bookkept.new (state : Unsealed) : M.Bookkept ⟨Mempool.new state, []⟩ where
  provisional := rfl
  weight := rfl
  nodup := List.nodup_nil
  recorded tx h := absurd h List.not_mem_nil
  room last before h := by cases h

/-- **One submission or rebase** keeps the books. -/
theorem submitStep_bookkept {e : MempoolEvent Sealed} (h : M.Bookkept t)
    (hstep : M.submitStep t e = some t') : M.Bookkept t' := by
  cases e with
  | rebase s =>
    cases hstep
    exact .new _
  | submit tx =>
    cases submitStep_cases hstep with
    | full => exact h
    | duplicate => exact h
    | refused =>
      -- only one more hash is recorded
      exact { h with recorded := fun tx' hmem => Finset.mem_insert_of_mem (h.recorded tx' hmem) }
    | accepted hroom hnew hstate =>
      refine ⟨?_, ?_, ?_, ?_, ?_⟩
      · rw [List.reverse_cons]
        exact Mempool.foldlM_snoc h.provisional hstate
      · rw [List.map_cons, List.sum_cons, ← h.weight]
        exact Nat.add_comm _ _
      · refine List.nodup_cons.mpr ⟨?_, h.nodup⟩
        rw [List.mem_map]
        rintro ⟨tx', hmem, heq⟩
        exact hnew (heq ▸ h.recorded tx' hmem)
      · intro tx' hmem
        rcases List.mem_cons.mp hmem with rfl | hmem
        · exact Finset.mem_insert_self _ _
        · exact Finset.mem_insert_of_mem (h.recorded tx' hmem)
      · intro last before heq
        cases heq
        rw [← h.weight]
        exact hroom

theorem submissions_bookkept (ht : M.submissions.Reachable t) : M.Bookkept t := by
  refine ht.invariant (I := M.Bookkept) ?_ ?_
  · rintro t ⟨state, rfl⟩
    exact .new state
  · exact fun t e t' h hstep => submitStep_bookkept h hstep

/-! ## A full mempool -/

theorem applyTransaction_full {mp : Mempool Unsealed} (hfull : weightLimit ≤ mp.nextWeight)
    (tx : Transaction) : Mempool.applyTransaction M mp tx = (.error (.bail .full), mp) := by
  unfold Mempool.applyTransaction
  rw [if_neg (Nat.not_lt.mpr hfull)]

/-- Until the next rebase a full mempool stays as it is. -/
theorem run_submit_full (hfull : weightLimit ≤ t.mempool.nextWeight) (txs : List Transaction) :
    Lts.run M.submitStep t (txs.map .submit) = some t := by
  induction txs with
  | nil => rfl
  | cons tx txs ih =>
    refine Lts.run_cons (t := t) ?_ ih
    unfold submitStep
    dsimp only
    rw [applyTransaction_full hfull]

/-- A transaction that cannot overflow the weight does not end the run. -/
theorem submitStep_isSome {tx : Transaction} (hfits : M.weight tx + weightLimit ≤ u128Bound) :
    (M.submitStep t (.submit tx)).isSome = true := by
  unfold submitStep
  dsimp only
  rcases hcall : Mempool.applyTransaction M t.mempool tx with ⟨res, mp'⟩
  cases Mempool.applyTransaction_cases hcall with
  | overflow hroom _ _ hweight => omega
  | _ => rfl

/-- **Mempool bookkeeping.** After every sequence of submissions and rebases, with the transactions
accepted since the last rebase: applied in order to `last_rebase` they give the provisional state,
their weights add up to `next_weight`, their hashes are pairwise different and recorded, and without
the last of them the weight was below the limit. From the limit on every submission is refused until
the next rebase. So the next proposal lists every one of them once. No sequence of transactions whose
weights fit ends in a panic. -/
theorem mempool_bookkept (ht : M.submissions.Reachable t) :
    M.Bookkept t ∧
      (weightLimit ≤ t.mempool.nextWeight → ∀ txs : List Transaction,
        Lts.run M.submitStep t (txs.map .submit) = some t ∧
          ∀ tx ∈ txs, (Mempool.applyTransaction M t.mempool tx).1 = .error (.bail .full)) ∧
      (M.ListsTransactions → ∀ s action, t.mempool.lastRebase = M.nextUnsealed s →
        (M.toBlock (M.sealState t.mempool.toState action)).transactions.Perm t.accepted ∧
          t.accepted.Nodup) ∧
      ∀ tx, M.weight tx + weightLimit ≤ u128Bound → (M.submitStep t (.submit tx)).isSome = true := by
  have hbook := submissions_bookkept ht
  refine ⟨hbook, fun hfull txs => ⟨run_submit_full hfull txs, fun tx _ => ?_⟩, ?_,
    fun tx => submitStep_isSome⟩
  · rw [applyTransaction_full hfull]
  · intro hlists s action hbase
    refine ⟨?_, hbook.nodup.of_map⟩
    have hprovisional := hbook.provisional
    rw [hbase] at hprovisional
    exact (hlists action hprovisional).trans (List.reverse_perm _)

end Melstf

namespace Ledger

theorem chained_lists : chained.ListsTransactions := by
  have hstep : ∀ {u u' : Unsealed} {tx : Transaction}, chained.applyTx u tx = .ok u' →
      u'.transactions = u.transactions ++ [tx] := by
    intro u u' tx h
    have happly : applyTx u tx = .ok u' := by
      unfold chained at h
      dsimp only at h
      split at h
      · split at h
        · exact h
        · cases h
      · exact h
    have hfold : [tx].foldlM applyTx u = .ok u' := by simpa [List.foldlM] using happly
    exact (foldlM_applyTx hfold).2.2.1
  have hfold : ∀ {txs : List Transaction} {u u' : Unsealed}, txs.foldlM chained.applyTx u = .ok u' →
      u'.transactions = u.transactions ++ txs := by
    intro txs
    induction txs with
    | nil =>
      intro u u' h
      cases h
      exact (List.append_nil _).symm
    | cons tx txs ih =>
      intro u u' h
      rw [List.foldlM_cons] at h
      cases hu : chained.applyTx u tx with
      | error e =>
        rw [hu] at h
        cases h
      | ok next =>
        rw [hu] at h
        rw [ih h, hstep hu, List.append_assoc]
        rfl
  intro s txs state action h
  exact .of_eq (hfold h)

end Ledger

namespace Melstf

/-- The two payments are in the next block, each once. -/
theorem mempool_bookkept_twoPayments :
    Ledger.twoPayments.accepted = [Ledger.payment 3, Ledger.payment 1] ∧
      (Ledger.chained.toBlock (Ledger.chained.sealState Ledger.twoPayments.mempool.toState
        none)).transactions.Perm [Ledger.payment 3, Ledger.payment 1] := by
  have haccepted : Ledger.twoPayments.accepted = [Ledger.payment 3, Ledger.payment 1] := by
    decide +kernel
  obtain ⟨-, -, hproposal, -⟩ := mempool_bookkept Ledger.twoPayments_reachable.of_guard
  refine ⟨haccepted, ?_⟩
  rw [← haccepted]
  refine (hproposal Ledger.chained_lists (Ledger.chained.genesisState Ledger.threeStakers) none
    ?_).1
  rfl

end Melstf

end Melnode
