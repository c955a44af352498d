import Melnode.Staker.Signing

/-!
# A staker over the lives of its process

`lives` is a node whose process may end at any moment and be started again on the database it left.
The new process keeps no record of what the old one signed: what stops it from signing a height again
is, as within one life, that a block of the height is stored. A life that ends between a decision and
its commit leaves a signature behind that no row accounts for, and counts as a failed round.
-/

namespace Melnode

open Lib

variable {Sealed Unsealed : Type}

/-- The height a round has signed a block of, while no block of it is stored. -/
def Node.unsettled (n : Node Sealed Unsealed) : List Nat :=
  match n.round with
  | .gathering _ decision =>
    if (n.storage.shared.db.block? decision.header.height).isSome then []
    else [decision.header.height]
  | .applying _ decision _ =>
    if (n.storage.shared.db.block? decision.header.height).isSome then []
    else [decision.header.height]
  | _ => []

inductive LifeEvent (Sealed : Type) where
  | node (e : NodeEvent Sealed)
  | restart

namespace Melstf

variable (M : Melstf Sealed Unsealed) (genesis : GenesisConfig) (cfg : StakerConfig)

/-- The process ended and is started again. -/
def restart (n : Node Sealed Unsealed) : Option (Node Sealed Unsealed) :=
  ((M.storage genesis).exec n.storage (.inr .reopen)).map fun storage =>
    { storage := storage
      round := .listening
      sigGather := ∅
      signed := n.signed
      failed := n.unsettled ++ n.failed }

def lifeStep (n : Node Sealed Unsealed) : LifeEvent Sealed → Option (Node Sealed Unsealed)
  | .node e => M.nodeStep genesis cfg n e
  | .restart => M.restart genesis n

/-- The runs of a node over any number of processes. -/
def lives : Lts (Node Sealed Unsealed) (LifeEvent Sealed) :=
  Lts.ofNext (M.NodeOpened genesis) (M.lifeStep genesis cfg)

variable {M genesis cfg} {n n' : Node Sealed Unsealed}

/-! ## One step -/

section Steps

/-- A step of one process keeps the invariant of a node. -/
theorem NodeOk.nodeStep (hB : M.BuildsStates) (hok : M.NodeOk genesis n) {e : NodeEvent Sealed}
    (h : M.nodeStep genesis cfg n e = some n') : M.NodeOk genesis n' := by
  have hG := nodeStep_isPrefix hB hok h
  have hstorage : M.SharedOk genesis n'.storage.shared ∧
      ∀ i, M.CallOk genesis n'.storage.shared i (n'.storage.procs i) := by
    rcases nodeStep_storage h with heq | ⟨label, -, hexec⟩
    · rw [heq]
      exact ⟨hok.shared, hok.calls⟩
    · obtain ⟨hshared, hcalls, -⟩ := exec_ok hB hok.shared hok.calls hexec
      exact ⟨hshared, hcalls⟩
  cases e with
  | staker e =>
    obtain ⟨hround, hown⟩ := (stakerStep_cases h).2.ok hok hG
    exact ⟨hstorage.1, hstorage.2, hround, hown⟩
  | storage label =>
    obtain ⟨-, storage, hexec, rfl⟩ := nodeStep_storage_eq h
    refine ⟨hstorage.1, hstorage.2, hok.round.grows hG, ?_⟩
    intro baseState decision i hi
    obtain ⟨cproof, phase, hcall⟩ := hok.own baseState decision i hi
    obtain ⟨phase', hcall'⟩ := exec_made hexec hcall
    exact ⟨cproof, phase', hcall'⟩

theorem restart_cases (h : M.restart genesis n = some n') :
    ∃ storage, (M.storage genesis).exec n.storage (.inr .reopen) = some storage ∧
      n' = ⟨storage, .listening, ∅, n.signed, n.unsettled ++ n.failed⟩ := by
  obtain ⟨storage, hexec, rfl⟩ := Option.map_eq_some_iff.mp h
  exact ⟨storage, hexec, rfl⟩

/-- A restart finds the rows as they were. -/
theorem reopen_db (hB : M.BuildsStates) {c c' : Procs.Config Nat (Shared Unsealed) (Call Sealed)}
    (hok : M.SharedOk genesis c.shared)
    (hexec : (M.storage genesis).exec c (.inr .reopen) = some c') : c'.shared.db = c.shared.db := by
  obtain ⟨sh, hstep, rfl⟩ := Procs.exec_env.mp hexec
  have hstep' : M.storageStep genesis .reopen c.shared = some sh := hstep
  exact (storageStep_same hB hok hstep').2.1

theorem NodeOk.restart (hB : M.BuildsStates) (hok : M.NodeOk genesis n)
    (h : M.restart genesis n = some n') : M.NodeOk genesis n' := by
  obtain ⟨storage, hexec, rfl⟩ := restart_cases h
  obtain ⟨hshared, hcalls, -⟩ := exec_ok hB hok.shared hok.calls hexec
  exact ⟨hshared, hcalls, trivial, nofun⟩

/-- A step of one process keeps the signatures settled. -/
theorem Settled.nodeStep (hB : M.BuildsStates) (hC : M.ChecksHeader) (hok : M.NodeOk genesis n)
    (hset : M.Settled n) {e : NodeEvent Sealed} (h : M.nodeStep genesis cfg n e = some n') :
    M.Settled n' := by
  have hG := nodeStep_isPrefix hB hok h
  cases e with
  | staker e => exact (stakerStep_cases h).2.settled hB hC hok hG hset
  | storage label =>
    obtain ⟨-, storage, -, rfl⟩ := nodeStep_storage_eq h
    exact hset.of_same rfl rfl (settledHeight_mono hG.le _)

/-- What a read of `highest_state` concerns is stored. -/
theorem settledHeight_reading (hB : M.BuildsStates) (hok : M.NodeOk genesis n) {r : Reading Sealed}
    (hr : M.ReadingOk genesis n.storage.shared.db r) :
    M.settledHeight n.storage.shared.db.highestHeight (.reading r) ≤
      n.storage.shared.db.highestHeight := by
  cases r with
  | start => exact Nat.le_refl _
  | height h => exact hr
  | block h blk => exact hr.2.1
  | done s => exact base_le hB hok hr

/-- The signature of a round that is given up before its height is stored counts as failed. -/
theorem Settled.give_up (hB : M.BuildsStates) (hok : M.NodeOk genesis n) (hset : M.Settled n)
    (height : Nat) (hset_at : M.settledHeight n.storage.shared.db.highestHeight n.round = height)
    (hle : height ≤ n.storage.shared.db.highestHeight + 1) {m : Node Sealed Unsealed}
    (hsigned : m.signed = n.signed)
    (hfailed : m.failed = (if (n.storage.shared.db.block? height).isSome then []
      else [height]) ++ n.failed)
    (hm : M.settledHeight m.storage.shared.db.highestHeight m.round =
      n.storage.shared.db.highestHeight) : M.Settled m := by
  cases hblk : n.storage.shared.db.block? height with
  | some blk =>
    rw [hblk] at hfailed
    refine hset.of_same hsigned hfailed ?_
    rw [hset_at, hm]
    exact le_of_block? hB hok hblk
  | none =>
    rw [hblk] at hfailed
    have hsame : ∀ k, signatures m k = signatures n k := by
      intro k
      unfold signatures
      rw [hsigned]
    have habove := hset.above
    rw [hset_at] at habove
    have hcons : m.failed = height :: n.failed := hfailed
    refine ⟨fun k => ?_, fun k hk => ?_⟩
    · rw [hsame, hcons]
      exact Nat.le_trans (hset.le k) (Nat.succ_le_succ List.count_le_count_cons)
    · rw [hm] at hk
      rw [hsame, hcons]
      by_cases hd : height = k
      · subst hd
        rw [List.count_cons_self]
        exact hset.le _
      · rw [List.count_cons_of_ne hd]
        exact habove k (by omega)

/-- **A restart** keeps the signatures settled. -/
theorem Settled.restart (hB : M.BuildsStates) (hC : M.ChecksHeader) (hok : M.NodeOk genesis n)
    (hset : M.Settled n) (h : M.restart genesis n = some n') : M.Settled n' := by
  obtain ⟨storage, hexec, rfl⟩ := restart_cases h
  have hdb := reopen_db hB hok.shared hexec
  have hround := hok.round
  have hnew : M.settledHeight storage.shared.db.highestHeight .listening =
      n.storage.shared.db.highestHeight := congrArg Tables.highestHeight hdb
  -- outside a signed round nothing is added, and what was settled is stored
  have hrest : n.unsettled = [] →
      M.settledHeight n.storage.shared.db.highestHeight n.round ≤
        n.storage.shared.db.highestHeight →
      M.Settled ⟨storage, .listening, ∅, n.signed, n.unsettled ++ n.failed⟩ := by
    intro hnone hle
    refine hset.of_same rfl ?_ ?_
    · rw [hnone]
      rfl
    · rw [hnew]
      exact hle
  cases hr : n.round with
  | listening =>
    refine hrest (by simp [Node.unsettled, hr]) ?_
    rw [hr]
    exact Nat.le_refl _
  | reading r =>
    rw [hr] at hround
    refine hrest (by simp [Node.unsettled, hr]) ?_
    rw [hr]
    exact settledHeight_reading hB hok hround
  | waiting baseState =>
    rw [hr] at hround
    refine hrest (by simp [Node.unsettled, hr]) ?_
    rw [hr]
    exact base_le hB hok hround
  | mismatch baseState =>
    rw [hr] at hround
    refine hrest (by simp [Node.unsettled, hr]) ?_
    rw [hr]
    exact base_le hB hok hround
  | deciding baseState proposal =>
    rw [hr] at hround
    refine hrest (by simp [Node.unsettled, hr]) ?_
    rw [hr]
    exact base_le hB hok hround
  | gathering baseState decision =>
    rw [hr] at hround
    have hheight := decision_height hC hround.2
    have hbase := base_le hB hok hround.1
    refine hset.give_up hB hok decision.header.height ?_ (by omega) rfl ?_ hnew
    · rw [hr, hheight]
      rfl
    · unfold Node.unsettled
      rw [hr]
  | applying baseState decision i =>
    rw [hr] at hround
    have hheight := decision_height hC hround.2
    have hbase := base_le hB hok hround.1
    refine hset.give_up hB hok decision.header.height ?_ (by omega) rfl ?_ hnew
    · rw [hr, hheight]
      rfl
    · unfold Node.unsettled
      rw [hr]

end Steps

/-! ## All lives -/

theorem lifeStep_ok (hB : M.BuildsStates) (hC : M.ChecksHeader) (hok : M.NodeOk genesis n)
    (hset : M.Settled n) {e : LifeEvent Sealed} (h : M.lifeStep genesis cfg n e = some n') :
    M.NodeOk genesis n' ∧ M.Settled n' := by
  cases e with
  | node e => exact ⟨hok.nodeStep hB h, hset.nodeStep hB hC hok h⟩
  | restart => exact ⟨hok.restart hB h, hset.restart hB hC hok h⟩

theorem NodeOpened.ok (hB : M.BuildsStates) (h : M.NodeOpened genesis n) :
    M.NodeOk genesis n ∧ M.Settled n := by
  have hn : (M.node genesis ⟨0, fun _ => [], 0, 0⟩).Reachable n := Lts.Reachable.init h
  refine ⟨node_reachable hB hn, fun k => ?_, fun k _ => ?_⟩
  · unfold signatures
    rw [h.signed]
    exact Nat.zero_le _
  · unfold signatures
    rw [h.signed]
    exact Nat.zero_le _

theorem lives_reachable (hB : M.BuildsStates) (hC : M.ChecksHeader)
    (hn : (M.lives genesis cfg).Reachable n) : M.NodeOk genesis n ∧ M.Settled n :=
  hn.invariant (I := fun n => M.NodeOk genesis n ∧ M.Settled n) (fun _ h => h.ok hB)
    fun _ _ _ ⟨hok, hset⟩ hstep => lifeStep_ok hB hC hok hset hstep

/-- A height without a failed round has one signature. -/
theorem Settled.signed_unique (hset : M.Settled n) {h : Nat} (hfailed : h ∉ n.failed)
    {hash hash' : HashVal} (hmem : (h, hash) ∈ n.signed) (hmem' : (h, hash') ∈ n.signed) :
    hash = hash' := by
  have hle := hset.le h
  rw [List.count_eq_zero.mpr hfailed] at hle
  have hcard : (signedHashes n h).card ≤ 1 := Nat.le_trans (card_signedHashes_le n h) hle
  have hin : ∀ {x : HashVal}, (h, x) ∈ n.signed → x ∈ signedHashes n h := by
    intro x hx
    unfold signedHashes
    rw [List.mem_toFinset, List.mem_map]
    exact ⟨(h, x), List.mem_filter.mpr ⟨hx, beq_self_eq_true h⟩, rfl⟩
  exact Finset.card_le_one.mp hcard _ (hin hmem) _ (hin hmem')

/-- **Signatures of a height, over all lives.** However often the process ends and is started again,
the header hashes a staker has signed for a height are at most one more than its rounds for that
height that ended, with a failed `apply_block` or with the process, before a block of that height was
stored. -/
theorem lives_signedHashes_le (hB : M.BuildsStates) (hC : M.ChecksHeader)
    (hn : (M.lives genesis cfg).Reachable n) (h : Nat) :
    (signedHashes n h).card ≤ n.failed.count h + 1 :=
  Nat.le_trans (card_signedHashes_le n h) ((lives_reachable hB hC hn).2.le h)

end Melstf

/-! ## A process that ends in its round -/

namespace Ledger

/-- The node after some steps of its lives. -/
def livesAfter (events : List (LifeEvent Ledger.Sealed)) : Node Ledger.Sealed Ledger.Unsealed :=
  (Lts.run (ledger.lifeStep threeStakers staker) nodeStart events).getD nodeStart

/-- Steps of one process. -/
def inLife (events : List (NodeEvent Ledger.Sealed)) : List (LifeEvent Ledger.Sealed) :=
  events.map .node

/-- The staker decides a block and the process is killed; the next one decides another block. -/
def forgotten : List (LifeEvent Ledger.Sealed) :=
  inLife ([.staker (.listen true)] ++ (roundOn (firstBlock 1) 0).dropLast ++ [.storage (.inr .kill)]) ++
    [.restart] ++
    inLife (readGenesis ++ [.staker .propose, .staker .rebase] ++
      (roundOn (firstBlock 2) 1).dropLast)

end Ledger

namespace Melstf

/-- Killed between the decision and the commit, the staker signs two blocks of height 1, and the
bound is met. -/
theorem lives_signedHashes_le_forgotten :
    (signedHashes (Ledger.livesAfter Ledger.forgotten) 1).card ≤
        (Ledger.livesAfter Ledger.forgotten).failed.count 1 + 1 ∧
      (signedHashes (Ledger.livesAfter Ledger.forgotten) 1).card = 2 := by
  have hreach : (ledger.lives Ledger.threeStakers Ledger.staker).Reachable
      (Ledger.livesAfter Ledger.forgotten) :=
    ⟨_, Ledger.nodeStart_opened, Lts.reaches_end (by with_unfolding_all decide)⟩
  exact ⟨lives_signedHashes_le ledger_builds ledger_checks hreach 1, by with_unfolding_all decide⟩

end Melstf

end Melnode
