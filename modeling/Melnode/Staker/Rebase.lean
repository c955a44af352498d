import Melnode.Staker.Invariant

/-!
# The staker's rebase

A round whose base state is behind the mempool takes the difference for a stale mempool and rebases
it on the base state it read ten seconds before. `mempool_follows` says when this does no harm: the
base state is still the highest one, or a call is about to rebase after its commit.
-/

namespace Melnode

open Lib

namespace Melstf

variable {Sealed Unsealed : Type} {M : Melstf Sealed Unsealed} {genesis : GenesisConfig}
  {cfg : StakerConfig}

/-- The step does not leave the mempool behind the chain: no call is dropped between its commit and
its rebase, no closure of a dropped call commits, and the staker rebases only on a base state that is
still the highest, or before the rebase of a call that has committed. -/
def freshRebase (M : Melstf Sealed Unsealed) (n : Node Sealed Unsealed) :
    NodeEvent Sealed → Bool
  | .storage (.inl (i, .drop)) => !(n.storage.procs i).isRebasing
  | .storage (.inl (i, .commit)) => !(n.storage.procs i).isOrphan
  | .staker .rebase =>
    match n.round with
    | .mismatch baseState =>
      (M.header baseState).height == n.storage.shared.db.highestHeight || holderRebasing n.storage
    | _ => true
  | .staker .skip =>
    match n.round.racing with
    | some (_, some i) => !(n.storage.procs i).isRebasing
    | _ => true
  | _ => true

/-- A base state at the highest height is the highest state. -/
theorem highestState_of_reading (hB : M.BuildsStates) {db : Tables} (hwf : M.WellFormed genesis db)
    {s : Sealed} (hs : M.ReadingOk genesis db (.done s))
    (hheight : (M.header s).height = db.highestHeight) : M.highestState genesis db = .ok s := by
  obtain ⟨k, -, hk⟩ := hs
  rw [hwf.stateAt_height hB hk] at hheight
  subst hheight
  exact hk

theorem keepsMempool_of_fresh (hB : M.BuildsStates) {n : Node Sealed Unsealed}
    (hok : M.NodeOk genesis n) {e : NodeEvent Sealed}
    {label : (Nat × CallEvent) ⊕ StorageEvent Sealed} (hfresh : M.freshRebase n e = true)
    (htouch : Touches n e label) : M.KeepsMempool genesis n.storage label := by
  cases htouch with
  | storage hleaves =>
    cases label with
    | inl call =>
      obtain ⟨i, e⟩ := call
      cases e with
      | drop =>
        show (n.storage.procs i).isRebasing = false
        simpa [freshRebase] using hfresh
      | commit =>
        show (n.storage.procs i).isOrphan = false
        simpa [freshRebase] using hfresh
      | _ => trivial
    | inr d =>
      cases d with
      | rebaseMempool s => cases hleaves
      | reopen => cases hleaves
      | _ => trivial
  | fetch => trivial
  | kill => trivial
  | @rebase baseState hround =>
    have hreading := hok.round
    rw [hround] at hreading
    simp only [freshRebase, hround, Bool.or_eq_true, beq_iff_eq] at hfresh
    rcases hfresh with hheight | hholder
    · exact Or.inl (highestState_of_reading hB (hok.shared.chain.wellFormed hB) hreading hheight)
    · exact Or.inr hholder
  | submit => trivial
  | skip hround =>
    simp only [freshRebase, hround, Bool.not_eq_true'] at hfresh
    exact hfresh

/-- **The mempool follows the chain.** From a storage whose mempool is on top of the highest state,
in every run whose steps do not leave it behind, it is on top of the highest state whenever no call
is between its commit and its rebase. -/
theorem mempool_follows (hB : M.BuildsStates) {n₀ n : Node Sealed Unsealed}
    (hopened : M.NodeOpened genesis n₀) (hfollows : M.FollowsHighest genesis n₀.storage.shared)
    (hrun : ((M.node genesis cfg).guard fun t e => M.freshRebase t e = true).Reaches n₀ n)
    (hquiet : ∀ i, (n.storage.procs i).isRebasing = false) :
    M.FollowsHighest genesis n.storage.shared := by
  have hinit : ∀ sh, sh = n₀.storage.shared → M.SharedOk genesis sh ∧ sh.lock = none ∧
      M.FollowsHighest genesis sh := by
    rintro sh rfl
    exact ⟨hopened.shared, hopened.lock, hfollows⟩
  refine follows_reachable hB hinit ⟨n₀.storage, hopened.storage_init rfl, ?_⟩ hquiet
  refine node_storage hrun fun t e label hreach hfresh htouch => ?_
  have hnode : (M.node genesis cfg).Reachable t := ⟨n₀, hopened, hreach.of_guard⟩
  exact keepsMempool_of_fresh hB (node_reachable hB hnode) hfresh htouch

/-! ## A rebase on a state read before a commit -/

section Idle

/-- The step concerns no call but call 0. -/
def onlyFirst : NodeEvent Sealed → Bool
  | .storage (.inl (i, _)) => i == 0
  | .storage (.inr _) => false
  | .staker (.submit _) => false
  | .staker .skip => false
  | .staker _ => true

theorem idle_of_onlyFirst {n n' : Node Sealed Unsealed}
    (hrun : ((M.node genesis cfg).guard fun _ e => onlyFirst e = true).Reaches n n')
    (hidle : ∀ i, i ≠ 0 → n.storage.procs i = .idle) : ∀ i, i ≠ 0 → n'.storage.procs i = .idle := by
  refine hrun.invariant (I := fun t => ∀ i, i ≠ 0 → t.storage.procs i = .idle) hidle ?_
  rintro t e t' ih ⟨hfirst, hstep⟩ i hi
  rcases nodeStep_storage hstep with heq | ⟨label, htouch, hexec⟩
  · rw [heq]
    exact ih i hi
  · cases label with
    | inl call =>
      obtain ⟨j, e'⟩ := call
      have hj : j = 0 := by
        cases htouch with
        | storage => simpa [onlyFirst] using hfirst
        | submit => cases hfirst
        | skip => cases hfirst
      obtain ⟨s', l', -, heq⟩ := Procs.exec_proc.mp hexec
      rw [heq]
      show Function.update t.storage.procs j l' i = .idle
      rw [Function.update_of_ne (hj ▸ hi)]
      exact ih i hi
    | inr d =>
      obtain ⟨s', -, heq⟩ := Procs.exec_env.mp hexec
      rw [heq]
      show ended d (t.storage.procs i) = .idle
      rw [ih i hi]
      cases d <;> rfl

end Idle

end Melstf

namespace Ledger

theorem nodeStart_follows : ledger.FollowsHighest threeStakers nodeStart.storage.shared := by
  intro s hs
  have hgenesis : s = ledger.genesisState threeStakers := by
    have hzero : nodeStart.storage.shared.db.highestHeight = 0 := Melstf.Chain.highestHeight_opened
    unfold Melstf.highestState at hs
    rw [hzero] at hs
    exact (Except.ok.inj hs).symm
  rw [hgenesis]
  exact Mempool.follows_new _

/-- The staker wakes after block sync has committed, and rebases on the genesis state. -/
def staleRebase : List (NodeEvent Sealed) :=
  readGenesis ++ syncFirst ++ [.staker .propose, .staker .rebase]

end Ledger

namespace Melstf

/-- The calls of a run that concerns no call but call 0. -/
theorem quiet_nodeAfter {events : List (NodeEvent Ledger.Sealed)}
    (hfirst : (Lts.runGuarded (ledger.nodeStep Ledger.threeStakers Ledger.staker)
      (fun _ e => onlyFirst e = true) Ledger.nodeStart events).isSome)
    (hzero : ((Ledger.nodeAfter events).storage.procs 0).isRebasing = false) :
    ∀ i, ((Ledger.nodeAfter events).storage.procs i).isRebasing = false := by
  intro i
  by_cases hi : i = 0
  · rw [hi]
    exact hzero
  · rw [idle_of_onlyFirst (Ledger.nodeAfter_guarded hfirst) (fun _ _ => rfl) i hi]
    rfl

/-- Block sync commits while the staker has its proposal; the round goes on, and the mempool is on
top of the new highest state. -/
theorem mempool_follows_sync :
    ledger.FollowsHighest Ledger.threeStakers
      (Ledger.nodeAfter (Ledger.readGenesis ++ [.staker .propose] ++ Ledger.syncFirst)).storage.shared :=
  mempool_follows ledger_builds Ledger.nodeStart_opened Ledger.nodeStart_follows
    (Ledger.nodeAfter_guarded (by decide +kernel))
    (quiet_nodeAfter (by decide +kernel) (by decide +kernel))

/-- Block sync commits and rebases between the staker's read of its base state and its look at the
mempool: the staker puts the mempool back on top of the genesis state. -/
theorem mempool_staleRebase :
    (ledger.node Ledger.threeStakers Ledger.staker).Reaches Ledger.nodeStart
        (Ledger.nodeAfter Ledger.staleRebase) ∧
      ledger.NodeOpened Ledger.threeStakers Ledger.nodeStart ∧
      ledger.FollowsHighest Ledger.threeStakers Ledger.nodeStart.storage.shared ∧
      (∀ i, ((Ledger.nodeAfter Ledger.staleRebase).storage.procs i).isRebasing = false) ∧
      ¬ ledger.FollowsHighest Ledger.threeStakers
        (Ledger.nodeAfter Ledger.staleRebase).storage.shared := by
  refine ⟨Ledger.nodeAfter_reaches (by decide +kernel), Ledger.nodeStart_opened,
    Ledger.nodeStart_follows, quiet_nodeAfter (by decide +kernel) (by decide +kernel), ?_⟩
  intro hfollows
  have hstate : (ledger.highestState Ledger.threeStakers
      (Ledger.nodeAfter Ledger.staleRebase).storage.shared.db).map (fun s => s.header.height) =
        .ok 1 := by
    decide +kernel
  cases hs : ledger.highestState Ledger.threeStakers
      (Ledger.nodeAfter Ledger.staleRebase).storage.shared.db with
  | error site =>
    rw [hs] at hstate
    cases hstate
  | ok s =>
    rw [hs] at hstate
    have hheight : s.header.height = 1 := Except.ok.inj hstate
    obtain ⟨txs, htxs⟩ := hfollows s hs
    have hkept : (Ledger.nodeAfter
        Ledger.staleRebase).storage.shared.mempool.provisionalState.height = s.header.height + 1 :=
      (Ledger.foldlM_applyTx htxs).2.1
    have hstale : (Ledger.nodeAfter
        Ledger.staleRebase).storage.shared.mempool.provisionalState.height = 1 := by
      decide +kernel
    omega

end Melstf

end Melnode
