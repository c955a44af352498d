import Melnode.Lib.Lts
import Melnode.Storage.Mempool
import Melnode.Stf.Ledger

/-!
# Submitting transactions to a mempool

`submissions` is a mempool over the submissions and rebases of a run, beside the transactions it has
accepted since the last rebase. `apply_transaction` records the hash of a transaction before the
state transition is asked, so a transaction that the transition refuses stays recorded, and comes
back as a duplicate (`resubmit_child`). Where nothing is refused by the transition, what is recorded
is what was accepted.
-/

namespace Melnode

open Lib

/-- What happens to a mempool. -/
inductive MempoolEvent (Sealed : Type) where
  | submit (tx : Transaction)
  | rebase (s : Sealed)

/-- A mempool and what it accepted since the last rebase; nothing reads the latter. -/
structure Submissions (Unsealed : Type) where
  mempool : Mempool Unsealed
  accepted : List Transaction

namespace Melstf

variable {Sealed Unsealed : Type} (M : Melstf Sealed Unsealed)

/-- One submission or rebase; a panic ends the run. -/
def submitStep (t : Submissions Unsealed) : MempoolEvent Sealed → Option (Submissions Unsealed)
  | .submit tx =>
    match Mempool.applyTransaction M t.mempool tx with
    | (.ok (), mempool) => some ⟨mempool, tx :: t.accepted⟩
    | (.error (.bail _), mempool) => some { t with mempool := mempool }
    | (.error (.panic _), _) => none
  | .rebase s => some ⟨Mempool.rebase M s, []⟩

/-- The runs of a mempool. -/
def submissions : Lts (Submissions Unsealed) (MempoolEvent Sealed) :=
  Lts.ofNext (fun t => ∃ state, t = ⟨Mempool.new state, []⟩) M.submitStep

/-- An error of `apply_transaction` leaves the mempool as it was. -/
def LeavesUnchanged (mp : Mempool Unsealed) (tx : Transaction) : Prop :=
  ∀ e mp', Mempool.applyTransaction M mp tx = (.error (.bail e), mp') → mp' = mp

/-- If the transaction gets as far as the state transition, the transition accepts it. -/
def NotRefused (mp : Mempool Unsealed) (tx : Transaction) : Prop :=
  mp.nextWeight < weightLimit → M.hashNosigs tx ∉ mp.txxInState →
    (M.applyTx mp.provisionalState tx).isOk = true

instance (mp : Mempool Unsealed) (tx : Transaction) : Decidable (M.NotRefused mp tx) :=
  inferInstanceAs (Decidable (_ → _ → _))

/-- Every submission of the run is one the transition does not refuse. -/
def SubmitsAccepted (t : Submissions Unsealed) : MempoolEvent Sealed → Prop
  | .submit tx => M.NotRefused t.mempool tx
  | .rebase _ => True

instance (t : Submissions Unsealed) : ∀ e : MempoolEvent Sealed, Decidable (M.SubmitsAccepted t e)
  | .submit tx => inferInstanceAs (Decidable (M.NotRefused t.mempool tx))
  | .rebase _ => inferInstanceAs (Decidable True)

variable {M}

/-! ## One submission -/

theorem notRefused_iff {mp : Mempool Unsealed} {tx : Transaction} :
    M.NotRefused mp tx ↔ ∀ e, mp.nextWeight < weightLimit → M.hashNosigs tx ∉ mp.txxInState →
      M.applyTx mp.provisionalState tx ≠ .error e := by
  unfold NotRefused
  cases M.applyTx mp.provisionalState tx with
  | ok state => simp [Except.isOk, Except.toBool]
  | error e => simp [Except.isOk, Except.toBool]

/-- **An error leaves the mempool unchanged, exactly** where the transition does not refuse. -/
theorem leavesUnchanged_iff {mp : Mempool Unsealed} {tx : Transaction} :
    M.LeavesUnchanged mp tx ↔ M.NotRefused mp tx := by
  rw [notRefused_iff]
  constructor
  · intro hsame e hroom hnew hrefused
    have hcall : Mempool.applyTransaction M mp tx =
        (.error (.bail (.state e)),
          { mp with txxInState := insert (M.hashNosigs tx) mp.txxInState }) := by
      simp [Mempool.applyTransaction, hroom, hnew, hrefused]
    have hset := congrArg Mempool.txxInState (hsame _ _ hcall)
    exact hnew (hset ▸ Finset.mem_insert_self _ _)
  · intro hadmits e mp' hcall
    cases Mempool.applyTransaction_cases hcall with
    | full => rfl
    | duplicate => rfl
    | refused hroom hnew hrefused => exact absurd hrefused (hadmits _ hroom hnew)

/-- What `apply_transaction` asks of a transaction. -/
theorem applyTransaction_ok {mp : Mempool Unsealed} {tx : Transaction} {state : Unsealed}
    (hroom : mp.nextWeight < weightLimit) (hnew : M.hashNosigs tx ∉ mp.txxInState)
    (hstate : M.applyTx mp.provisionalState tx = .ok state)
    (hweight : mp.nextWeight + M.weight tx < u128Bound) :
    (Mempool.applyTransaction M mp tx).1 = .ok () := by
  simp [Mempool.applyTransaction, hroom, hnew, hstate, checkedAdd, hweight]

/-! ## Runs -/

/-- The recorded hashes are those of the accepted transactions. -/
def RecordsAccepted (M : Melstf Sealed Unsealed) (t : Submissions Unsealed) : Prop :=
  ∀ hash, hash ∈ t.mempool.txxInState ↔ ∃ tx ∈ t.accepted, M.hashNosigs tx = hash

/-- The submissions that do not panic. -/
inductive Submitted (M : Melstf Sealed Unsealed) (t : Submissions Unsealed) (tx : Transaction) :
    Submissions Unsealed → Prop where
  | full (hfull : weightLimit ≤ t.mempool.nextWeight) : Submitted M t tx t
  | duplicate (hroom : t.mempool.nextWeight < weightLimit)
      (hmem : M.hashNosigs tx ∈ t.mempool.txxInState) : Submitted M t tx t
  | refused {e : StateError} (hroom : t.mempool.nextWeight < weightLimit)
      (hnew : M.hashNosigs tx ∉ t.mempool.txxInState)
      (hrefused : M.applyTx t.mempool.provisionalState tx = .error e) :
      Submitted M t tx { t with mempool := { t.mempool with
        txxInState := insert (M.hashNosigs tx) t.mempool.txxInState } }
  | accepted {state : Unsealed} (hroom : t.mempool.nextWeight < weightLimit)
      (hnew : M.hashNosigs tx ∉ t.mempool.txxInState)
      (hstate : M.applyTx t.mempool.provisionalState tx = .ok state) :
      Submitted M t tx
        { mempool := { t.mempool with
            provisionalState := state
            txxInState := insert (M.hashNosigs tx) t.mempool.txxInState
            nextWeight := t.mempool.nextWeight + M.weight tx }
          accepted := tx :: t.accepted }

theorem submitStep_cases {t t' : Submissions Unsealed} {tx : Transaction}
    (h : M.submitStep t (.submit tx) = some t') : M.Submitted t tx t' := by
  unfold submitStep at h
  dsimp only at h
  rcases hcall : Mempool.applyTransaction M t.mempool tx with ⟨res, mp'⟩
  rw [hcall] at h
  cases Mempool.applyTransaction_cases hcall with
  | full hfull =>
    cases h
    exact .full hfull
  | duplicate hroom hmem =>
    cases h
    exact .duplicate hroom hmem
  | refused hroom hnew hrefused =>
    cases h
    exact .refused hroom hnew hrefused
  | overflow => cases h
  | accepted hroom hnew hstate =>
    cases h
    exact .accepted hroom hnew hstate

/-- **One step** records what it accepts. -/
theorem submitStep_records {t t' : Submissions Unsealed} {e : MempoolEvent Sealed}
    (hrec : M.RecordsAccepted t) (hgood : M.SubmitsAccepted t e)
    (hstep : M.submitStep t e = some t') : M.RecordsAccepted t' := by
  cases e with
  | rebase s =>
    cases hstep
    intro hash
    simp [Mempool.rebase, Mempool.new]
  | submit tx =>
    have hnot := notRefused_iff.mp hgood
    cases submitStep_cases hstep with
    | full => exact hrec
    | duplicate => exact hrec
    | refused hroom hnew hrefused => exact absurd hrefused (hnot _ hroom hnew)
    | accepted =>
      intro hash
      have hold := hrec hash
      simp only [Finset.mem_insert, List.mem_cons, exists_eq_or_imp, hold, eq_comm (a := hash)]

theorem submissions_records {t : Submissions Unsealed}
    (ht : (M.submissions.guard M.SubmitsAccepted).Reachable t) : M.RecordsAccepted t := by
  refine ht.invariant (I := M.RecordsAccepted) ?_ ?_
  · rintro t ⟨state, rfl⟩ hash
    simp [Mempool.new]
  · intro t e t' hrec hstep
    exact submitStep_records hrec hstep.1 hstep.2

/-- **A rejected transaction leaves the mempool as it was, exactly** where it is not the state
transition that rejects it. In a run where the transition rejects nothing, whatever was rejected is
accepted as soon as there is room, the transition accepts it, and no transaction with its hash has
been accepted since the last rebase. -/
theorem rejected_unchanged_iff {t : Submissions Unsealed}
    (ht : (M.submissions.guard M.SubmitsAccepted).Reachable t) :
    (∀ (mp : Mempool Unsealed) (tx : Transaction), M.LeavesUnchanged mp tx ↔ M.NotRefused mp tx) ∧
      ∀ (tx : Transaction) (state : Unsealed), t.mempool.nextWeight < weightLimit →
        (∀ tx' ∈ t.accepted, M.hashNosigs tx' ≠ M.hashNosigs tx) →
        M.applyTx t.mempool.provisionalState tx = .ok state →
        t.mempool.nextWeight + M.weight tx < u128Bound →
        (Mempool.applyTransaction M t.mempool tx).1 = .ok () := by
  refine ⟨fun _ _ => leavesUnchanged_iff, fun tx state hroom hfresh hstate hweight => ?_⟩
  refine applyTransaction_ok hroom ?_ hstate hweight
  rw [submissions_records ht]
  rintro ⟨tx', hmem, heq⟩
  exact hfresh tx' hmem heq

end Melstf

/-! ## A transaction that comes before its parent -/

namespace Ledger

/-- The small transition with transactions that need another one in the state: a second byte names
the parent. -/
def chained : Melstf Sealed Unsealed :=
  { ledger with
    applyTx := fun u tx =>
      match tx.rest with
      | [_, parent] =>
        if payment parent ∈ u.transactions then applyTx u tx else .error (.other "missing parent")
      | _ => applyTx u tx }

/-- A payment that spends the payment `parent`. -/
def child (tag parent : UInt8) : Transaction := ⟨.other 0, [], [], [tag, parent]⟩

/-- The mempool on top of the genesis state. -/
def emptyMempool : Mempool Unsealed :=
  Mempool.rebase chained (chained.genesisState threeStakers)

/-- Submitting transactions one after the other. -/
def submitAll (txs : List Transaction) : Mempool Unsealed :=
  txs.foldl (fun mp tx => (Mempool.applyTransaction chained mp tx).2) emptyMempool

/-- The same mempool after two payments and a repeated one. -/
def twoPayments : Submissions Unsealed :=
  (Lts.run chained.submitStep ⟨emptyMempool, []⟩
    [.submit (payment 1), .submit (payment 1), .submit (payment 3)]).getD ⟨emptyMempool, []⟩

theorem twoPayments_reachable :
    (chained.submissions.guard chained.SubmitsAccepted).Reachable twoPayments :=
  ⟨⟨emptyMempool, []⟩, ⟨_, rfl⟩, Lts.reaches_end_guarded (by decide)⟩

end Ledger

namespace Melstf

/-- A child of an accepted payment is accepted. -/
theorem rejected_unchanged_iff_child :
    (∀ mp tx, Ledger.chained.LeavesUnchanged mp tx ↔ Ledger.chained.NotRefused mp tx) ∧
      (Mempool.applyTransaction Ledger.chained Ledger.twoPayments.mempool (Ledger.child 2 1)).1 =
        .ok () := by
  have h := rejected_unchanged_iff Ledger.twoPayments_reachable
  refine ⟨h.1, ?_⟩
  have hstate : ∃ state, Ledger.chained.applyTx Ledger.twoPayments.mempool.provisionalState
      (Ledger.child 2 1) = .ok state := ⟨_, rfl⟩
  obtain ⟨state, hstate⟩ := hstate
  exact h.2 (Ledger.child 2 1) state (by decide +kernel) (by decide +kernel) hstate
    (by decide +kernel)

/-- A child submitted before its parent is refused and leaves its hash behind: once the parent is
there the transition accepts the child, and the mempool takes it for a duplicate. -/
theorem resubmit_child :
    (Mempool.applyTransaction Ledger.chained Ledger.emptyMempool (Ledger.child 2 1)).1 =
        .error (.bail (.state (.other "missing parent"))) ∧
      (Ledger.submitAll [Ledger.child 2 1]).txxInState ≠ Ledger.emptyMempool.txxInState ∧
      (Ledger.chained.applyTx
        (Ledger.submitAll [Ledger.child 2 1, Ledger.payment 1]).provisionalState
        (Ledger.child 2 1)).isOk = true ∧
      (Mempool.applyTransaction Ledger.chained
        (Ledger.submitAll [Ledger.child 2 1, Ledger.payment 1]) (Ledger.child 2 1)).1 =
        .error (.bail (.state .duplicateTx)) := by
  decide +kernel

end Melstf

end Melnode
