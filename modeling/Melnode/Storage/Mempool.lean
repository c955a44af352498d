import Melnode.Stf

/-!
# The mempool

A provisional state on top of a sealed one, and what was admitted to it since the last rebase.
`Follows` says that the provisional state is a given state plus transactions it accepted: a rebase
establishes it for the successor of the new base, and a transaction keeps it whether or not it is
admitted.
-/

namespace Melnode

/-- The errors of `apply_transaction`. -/
inductive MempoolError where
  | state (e : StateError)
  -- "mempool is full, try again later"
  | full
  deriving DecidableEq, Repr

/-- `WEIGHT_LIMIT`. -/
def weightLimit : Nat := 10000000

structure Mempool (Unsealed : Type) where
  provisionalState : Unsealed
  lastRebase : Unsealed
  txxInState : Finset TxHash
  nextWeight : Nat

namespace Mempool

variable {Sealed Unsealed : Type} (M : Melstf Sealed Unsealed)

/-- `Mempool::new`. -/
def new (state : Unsealed) : Mempool Unsealed where
  provisionalState := state
  lastRebase := state
  txxInState := ∅
  nextWeight := 0

/-- `Mempool::to_state`. -/
def toState (mp : Mempool Unsealed) : Unsealed := mp.provisionalState

/-- `apply_transaction`: the result and the mempool afterwards. -/
def applyTransaction (mp : Mempool Unsealed) (tx : Transaction) :
    Except (Fault MempoolError) Unit × Mempool Unsealed :=
  if mp.nextWeight < weightLimit then
    if M.hashNosigs tx ∈ mp.txxInState then
      (.error (.bail (.state .duplicateTx)), mp)
    else
      -- the hash is recorded before the state is asked
      let mp := { mp with txxInState := insert (M.hashNosigs tx) mp.txxInState }
      match M.applyTx mp.provisionalState tx with
      | .error e => (.error (.bail (.state e)), mp)
      | .ok state =>
        let mp := { mp with provisionalState := state }
        match checkedAdd mp.nextWeight (M.weight tx) with
        | .error f => (.error f, mp)
        | .ok weight => (.ok (), { mp with nextWeight := weight })
  else
    (.error (.bail .full), mp)

/-- `rebase`; what it logs is left out. -/
def rebase (state : Sealed) : Mempool Unsealed := new (M.nextUnsealed state)

/-- The cases of `applyTransaction`. -/
inductive ApplyTransaction (mp : Mempool Unsealed) (tx : Transaction) :
    Except (Fault MempoolError) Unit → Mempool Unsealed → Prop where
  | full (hfull : weightLimit ≤ mp.nextWeight) :
      ApplyTransaction mp tx (.error (.bail .full)) mp
  | duplicate (hroom : mp.nextWeight < weightLimit) (hmem : M.hashNosigs tx ∈ mp.txxInState) :
      ApplyTransaction mp tx (.error (.bail (.state .duplicateTx))) mp
  | refused {e : StateError} (hroom : mp.nextWeight < weightLimit)
      (hnew : M.hashNosigs tx ∉ mp.txxInState) (hrefused : M.applyTx mp.provisionalState tx = .error e) :
      ApplyTransaction mp tx (.error (.bail (.state e)))
        { mp with txxInState := insert (M.hashNosigs tx) mp.txxInState }
  | overflow {state : Unsealed} (hroom : mp.nextWeight < weightLimit)
      (hnew : M.hashNosigs tx ∉ mp.txxInState) (hstate : M.applyTx mp.provisionalState tx = .ok state)
      (hweight : u128Bound ≤ mp.nextWeight + M.weight tx) :
      ApplyTransaction mp tx (.error (.panic .overflow))
        { mp with
          provisionalState := state
          txxInState := insert (M.hashNosigs tx) mp.txxInState }
  | accepted {state : Unsealed} (hroom : mp.nextWeight < weightLimit)
      (hnew : M.hashNosigs tx ∉ mp.txxInState) (hstate : M.applyTx mp.provisionalState tx = .ok state)
      (hweight : mp.nextWeight + M.weight tx < u128Bound) :
      ApplyTransaction mp tx (.ok ())
        { mp with
          provisionalState := state
          txxInState := insert (M.hashNosigs tx) mp.txxInState
          nextWeight := mp.nextWeight + M.weight tx }

/-- The provisional state is `base` plus transactions it accepted one after the other. -/
def Follows (mp : Mempool Unsealed) (base : Unsealed) : Prop :=
  ∃ txs : List Transaction, txs.foldlM M.applyTx base = .ok mp.provisionalState

variable {M}

theorem applyTransaction_cases {mp mp' : Mempool Unsealed} {tx : Transaction}
    {res : Except (Fault MempoolError) Unit} (h : applyTransaction M mp tx = (res, mp')) :
    ApplyTransaction M mp tx res mp' := by
  unfold applyTransaction at h
  by_cases hroom : mp.nextWeight < weightLimit
  · rw [if_pos hroom] at h
    by_cases hmem : M.hashNosigs tx ∈ mp.txxInState
    · rw [if_pos hmem] at h
      cases h
      exact .duplicate hroom hmem
    · rw [if_neg hmem] at h
      dsimp only at h
      cases hstate : M.applyTx mp.provisionalState tx with
      | error e =>
        rw [hstate] at h
        cases h
        exact .refused hroom hmem hstate
      | ok state =>
        rw [hstate] at h
        dsimp only at h
        unfold checkedAdd at h
        by_cases hweight : mp.nextWeight + M.weight tx < u128Bound
        · rw [if_pos hweight] at h
          cases h
          exact .accepted hroom hmem hstate hweight
        · rw [if_neg hweight] at h
          cases h
          exact .overflow hroom hmem hstate (Nat.not_lt.mp hweight)
  · rw [if_neg hroom] at h
    cases h
    exact .full (Nat.not_lt.mp hroom)

/-- One more transaction on top of others. -/
theorem foldlM_snoc {txs : List Transaction} {tx : Transaction} {base state state' : Unsealed}
    (h : txs.foldlM M.applyTx base = .ok state) (hstate : M.applyTx state tx = .ok state') :
    (txs ++ [tx]).foldlM M.applyTx base = .ok state' := by
  rw [List.foldlM_append, h]
  simp [bind, Except.bind, pure, Except.pure, hstate]

theorem follows_new (base : Unsealed) : Follows M (new base) base := ⟨[], rfl⟩

theorem follows_applyTransaction {mp : Mempool Unsealed} {base : Unsealed} (h : Follows M mp base)
    (tx : Transaction) : Follows M (applyTransaction M mp tx).2 base := by
  obtain ⟨txs, htxs⟩ := h
  rcases heq : applyTransaction M mp tx with ⟨res, mp'⟩
  cases applyTransaction_cases heq with
  | full => exact ⟨txs, htxs⟩
  | duplicate => exact ⟨txs, htxs⟩
  | refused => exact ⟨txs, htxs⟩
  | overflow _ _ hstate _ => exact ⟨txs ++ [tx], foldlM_snoc htxs hstate⟩
  | accepted _ _ hstate _ => exact ⟨txs ++ [tx], foldlM_snoc htxs hstate⟩

/-- No recorded hash is forgotten. -/
theorem subset_applyTransaction {mp : Mempool Unsealed} {tx : Transaction} :
    mp.txxInState ⊆ (applyTransaction M mp tx).2.txxInState := by
  rcases heq : applyTransaction M mp tx with ⟨res, mp'⟩
  cases applyTransaction_cases heq with
  | full => exact Finset.Subset.refl _
  | duplicate => exact Finset.Subset.refl _
  | refused => exact Finset.subset_insert _ _
  | overflow => exact Finset.subset_insert _ _
  | accepted => exact Finset.subset_insert _ _

/-- An accepted transaction was not recorded before and is recorded now. -/
theorem recorded_of_accepted {mp : Mempool Unsealed} {tx : Transaction}
    (h : (applyTransaction M mp tx).1 = .ok ()) :
    M.hashNosigs tx ∉ mp.txxInState ∧
      M.hashNosigs tx ∈ (applyTransaction M mp tx).2.txxInState := by
  rcases heq : applyTransaction M mp tx with ⟨res, mp'⟩
  rw [heq] at h
  have hcases := applyTransaction_cases heq
  obtain rfl : res = .ok () := h
  cases hcases with
  | accepted hroom hnew => exact ⟨hnew, Finset.mem_insert_self _ _⟩

end Mempool

end Melnode
