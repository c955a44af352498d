import Melnode.Lib.Event
import Melnode.Storage.Follow

/-!
# Waiting for a state

`get_state_or_wait` registers a listener, reads the state of its height and sleeps when there is
none; `apply_block` notifies after it has committed and rebased. `watched M genesis` is a storage
with its calls and any number of waiters. In the runs whose calls are not dropped once their
transaction runs, no waiter sleeps through its block (`no_lost_wakeup`).
-/

namespace Melnode

open Lib

variable {Sealed Unsealed : Type}

/-! ## States -/

/-- Where a `get_state_or_wait` is. -/
inductive WaitPhase (Sealed : Type) where
  -- at the top of the loop
  | start
  -- listening; before the cache is looked into
  | looking (ticket : Nat)
  -- before the row is read
  | querying (ticket : Nat)
  | found (ticket : Nat) (blk : Block)
  -- `notify.await`
  | asleep (ticket : Nat)
  | returned (s : Sealed)
  | gone

/-- One `get_state_or_wait(height)`, before and after it is called. -/
inductive Waiter (Sealed : Type) where
  | idle
  | made (height : Nat) (phase : WaitPhase Sealed)

/-- The steps of a waiter. -/
inductive WaitEvent where
  | call (height : Nat)
  | listen
  | lookup
  | query
  | rebuild
  | wake
  | drop
  deriving DecidableEq

/-- A storage and the event that its waiters listen to. -/
structure Watched (Sealed Unsealed : Type) where
  storage : Procs.Config Nat (Shared Unsealed) (Call Sealed)
  newBlockNotify : Event
  -- the calls that have rebased the mempool and not notified yet
  pending : List Nat

/-- A step of the calls and the environment of the storage, or the notification of a call. -/
inductive WatchEvent (Sealed : Type) where
  | storage (label : (Nat × CallEvent) ⊕ StorageEvent Sealed)
  | notify (i : Nat)

namespace Watched

/-- The block at a height is committed. -/
def Stored (w : Watched Sealed Unsealed) (h : Nat) : Prop :=
  ∃ blk, w.storage.shared.db.block? h = some blk

/-- The call has committed and still has to notify. -/
def Owes (w : Watched Sealed Unsealed) (i : Nat) : Prop :=
  (w.storage.procs i).isRebasing = true ∨ i ∈ w.pending

/-- What is shared after a step of something else than a call. -/
def withShared (w : Watched Sealed Unsealed) (sh : Shared Unsealed) : Watched Sealed Unsealed :=
  { w with storage := ⟨sh, w.storage.procs⟩ }

/-- The calls that have still to notify after a step. -/
def pendingAfter (w : Watched Sealed Unsealed) :
    (Nat × CallEvent) ⊕ StorageEvent Sealed → List Nat
  | .inl (i, .rebase) => i :: w.pending
  | .inr .reopen => []
  | _ => w.pending

/-- A call holds the lock until it has notified. -/
def Admits (w : Watched Sealed Unsealed) : (Nat × CallEvent) ⊕ StorageEvent Sealed → Prop
  | .inl (_, .acquire) => w.pending = []
  | _ => True

instance (w : Watched Sealed Unsealed) (label : (Nat × CallEvent) ⊕ StorageEvent Sealed) :
    Decidable (w.Admits label) := by
  unfold Admits
  split <;> infer_instance

/-- How the shared state may change under a waiter: a block that is put on top owes a notification,
which stays owed until somebody notifies. -/
structure Moves (w w' : Watched Sealed Unsealed) : Prop where
  db : w.storage.shared.db.IsPrefix w'.storage.shared.db
  event : w.newBlockNotify.notified ≤ w'.newBlockNotify.notified
  stored : ∀ h, w'.Stored h → w.Stored h ∨ ∃ i, w'.Owes i
  owes : (∃ i, w.Owes i) →
    (∃ i, w'.Owes i) ∨ w.newBlockNotify.notified < w'.newBlockNotify.notified

end Watched

/-- The SQL transaction of the call has started. -/
def Call.hasStarted : Call Sealed → Bool
  | .made _ _ .running => true
  | .made _ _ (.rebasing _) => true
  | _ => false

/-- No step drops a call whose transaction has started, so that it runs to its end. -/
def RunsToEnd (c : Procs.Config Nat (Watched Sealed Unsealed) (Waiter Sealed)) :
    (Nat × WaitEvent) ⊕ WatchEvent Sealed → Prop
  | .inr (.storage (.inl (i, .drop))) => (c.shared.storage.procs i).hasStarted = false
  | _ => True

instance (c : Procs.Config Nat (Watched Sealed Unsealed) (Waiter Sealed))
    (label : (Nat × WaitEvent) ⊕ WatchEvent Sealed) : Decidable (RunsToEnd c label) := by
  unfold RunsToEnd
  split <;> infer_instance

/-- A waiter sleeps through its block: nobody has woken it and nobody is going to. -/
def Stuck (w : Watched Sealed Unsealed) (waiter : Waiter Sealed) : Prop :=
  ∃ h ticket, waiter = .made h (.asleep ticket) ∧ ¬ w.newBlockNotify.Notified ticket ∧
    w.Stored h ∧ ∀ i, ¬ w.Owes i

/-- Opening the storage makes a new event. -/
def eventAfter (event : Event) : (Nat × CallEvent) ⊕ StorageEvent Sealed → Event
  | .inr .reopen => Event.new
  | _ => event

/-! ## Steps -/

namespace Melstf

variable (M : Melstf Sealed Unsealed) (genesis : GenesisConfig)

/-- One step of a waiter; the assertion of `get_state` crashes the process. -/
def waiterStep (_ : Nat) (e : WaitEvent) (w : Watched Sealed Unsealed) (waiter : Waiter Sealed) :
    Option (Watched Sealed Unsealed × Waiter Sealed) :=
  let sh := w.storage.shared
  if sh.crashed then none else
  match e, waiter with
  | .call h, .idle => some (w, .made h .start)
  | .listen, .made h .start => some (w, .made h (.looking w.newBlockNotify.listen))
  | .lookup, .made h (.looking ticket) =>
    match sh.oldCache[h]? with
    | some blk => some (w, .made h (.found ticket blk))
    | none => some (w, .made h (.querying ticket))
  | .query, .made h (.querying ticket) =>
    match sh.db.block? h with
    | some blk =>
      some (w.withShared { sh with fetched := (h, blk) :: sh.fetched }, .made h (.found ticket blk))
    | none => some (w, .made h (.asleep ticket))
  | .rebuild, .made h (.found ticket blk) =>
    match M.rebuildState blk (M.getStakeset genesis sh.db h) with
    | .ok s => some (w, .made h (.returned s))
    | .error _ => some (w.withShared { sh with crashed := true }, .made h (.found ticket blk))
  | .wake, .made h (.asleep ticket) =>
    if w.newBlockNotify.Notified ticket then some (w, .made h .start) else none
  | .drop, .made _ (.returned _) => none
  | .drop, .made _ .gone => none
  | .drop, .made h _ => some (w, .made h .gone)
  | _, _ => none

/-- One step of everything else. -/
def watchStep : WatchEvent Sealed → Watched Sealed Unsealed → Option (Watched Sealed Unsealed)
  | .storage label, w =>
    if w.Admits label then
      ((M.storage genesis).exec w.storage label).map fun c =>
        ⟨c, eventAfter w.newBlockNotify label, w.pendingAfter label⟩
    else
      none
  | .notify i, w =>
    if w.storage.shared.crashed = false ∧ i ∈ w.pending then
      some { w with newBlockNotify := w.newBlockNotify.notify, pending := w.pending.erase i }
    else
      none

/-- The end of the process ends every waiter that has not returned. -/
def waiterMoved : WatchEvent Sealed → Waiter Sealed → Waiter Sealed
  | .storage (.inr .reopen), .made h (.returned s) => .made h (.returned s)
  | .storage (.inr .reopen), .made h _ => .made h .gone
  | _, waiter => waiter

/-- A storage opened on a fresh database, its calls and its waiters. -/
def watched : Procs Nat (Watched Sealed Unsealed) (Waiter Sealed) WaitEvent (WatchEvent Sealed) where
  init w := (M.storage genesis).lts.init w.storage ∧ w.newBlockNotify = Event.new ∧ w.pending = []
  start := .idle
  step := M.waiterStep genesis
  env := M.watchStep genesis
  moved := waiterMoved

/-! ## What a step can do -/

/-- The cases of `waiterStep`. -/
inductive WaiterStep (w : Watched Sealed Unsealed) :
    WaitEvent → Waiter Sealed → Watched Sealed Unsealed → Waiter Sealed → Prop where
  | call (h : Nat) : WaiterStep w (.call h) .idle w (.made h .start)
  | listen {h : Nat} :
      WaiterStep w .listen (.made h .start) w (.made h (.looking w.newBlockNotify.listen))
  | hit {h ticket : Nat} {blk : Block} (hblk : w.storage.shared.oldCache[h]? = some blk) :
      WaiterStep w .lookup (.made h (.looking ticket)) w (.made h (.found ticket blk))
  | miss {h ticket : Nat} :
      WaiterStep w .lookup (.made h (.looking ticket)) w (.made h (.querying ticket))
  | row {h ticket : Nat} {blk : Block} (hblk : w.storage.shared.db.block? h = some blk) :
      WaiterStep w .query (.made h (.querying ticket))
        (w.withShared { w.storage.shared with
          fetched := (h, blk) :: w.storage.shared.fetched })
        (.made h (.found ticket blk))
  | sleep {h ticket : Nat} (hblk : w.storage.shared.db.block? h = none) :
      WaiterStep w .query (.made h (.querying ticket)) w (.made h (.asleep ticket))
  | rebuilt {h ticket : Nat} {blk : Block} {s : Sealed}
      (hs : M.rebuildState blk (M.getStakeset genesis w.storage.shared.db h) = .ok s) :
      WaiterStep w .rebuild (.made h (.found ticket blk)) w (.made h (.returned s))
  | mismatch {h ticket : Nat} {blk : Block} :
      WaiterStep w .rebuild (.made h (.found ticket blk))
        (w.withShared { w.storage.shared with crashed := true }) (.made h (.found ticket blk))
  | wake {h ticket : Nat} (hnotified : w.newBlockNotify.Notified ticket) :
      WaiterStep w .wake (.made h (.asleep ticket)) w (.made h .start)
  | drop {h : Nat} {phase : WaitPhase Sealed} :
      WaiterStep w .drop (.made h phase) w (.made h .gone)

variable {M genesis}
variable {w w' : Watched Sealed Unsealed}

theorem waiterStep_cases {j : Nat} {e : WaitEvent} {waiter waiter' : Waiter Sealed}
    (h : M.waiterStep genesis j e w waiter = some (w', waiter')) :
    w.storage.shared.crashed = false ∧ M.WaiterStep genesis w e waiter w' waiter' := by
  unfold waiterStep at h
  dsimp only at h
  split at h
  · cases h
  · next hcrash =>
    refine ⟨by simpa using hcrash, ?_⟩
    split at h
    · cases h
      exact .call _
    · cases h
      exact .listen
    · split at h
      · next hblk =>
        cases h
        exact .hit hblk
      · cases h
        exact .miss
    · split at h
      · next hblk =>
        cases h
        exact .row hblk
      · next hblk =>
        cases h
        exact .sleep hblk
    · split at h
      · next hs =>
        cases h
        exact .rebuilt hs
      · cases h
        exact .mismatch
    · split at h
      · next hnotified =>
        cases h
        exact .wake hnotified
      · cases h
    · cases h
    · cases h
    · cases h
      exact .drop
    · cases h

/-- What a waiter does to the storage, others do to it as well: it reads a block or panics. -/
theorem WaiterStep.storage {e : WaitEvent} {waiter waiter' : Waiter Sealed}
    (hcrash : w.storage.shared.crashed = false)
    (h : M.WaiterStep genesis w e waiter w' waiter') :
    w'.newBlockNotify = w.newBlockNotify ∧ w'.pending = w.pending ∧
      w'.storage.procs = w.storage.procs ∧ w'.storage.shared.db = w.storage.shared.db ∧
      (M.storage genesis).lts.Reaches w.storage w'.storage := by
  have hmoved : ∀ {d : StorageEvent Sealed} {sh : Shared Unsealed}, d ≠ .reopen →
      M.storageStep genesis d w.storage.shared = some sh →
      (M.storage genesis).lts.Reaches w.storage ⟨sh, w.storage.procs⟩ := by
    intro d sh hd hstep
    refine (Lts.Reaches.refl _).tail (e := .inr d) (Procs.exec_env.mpr ⟨sh, hstep, ?_⟩)
    have hprocs : (fun i => ended d (w.storage.procs i)) = w.storage.procs :=
      funext fun i => moved_of_ne_reopen hd (w.storage.procs i)
    show (⟨sh, w.storage.procs⟩ : Procs.Config Nat (Shared Unsealed) (Call Sealed)) =
      ⟨sh, fun i => ended d (w.storage.procs i)⟩
    rw [hprocs]
  cases h with
  | @row h _ blk hblk =>
    refine ⟨rfl, rfl, rfl, rfl, hmoved (d := .fetch h) (by simp) ?_⟩
    simp [storageStep, hcrash, hblk]
  | mismatch => exact ⟨rfl, rfl, rfl, rfl, hmoved (d := .kill) (by simp) rfl⟩
  | _ => exact ⟨rfl, rfl, rfl, rfl, Lts.Reaches.refl _⟩

theorem watchStep_cases {e : WatchEvent Sealed} (h : M.watchStep genesis e w = some w') :
    (∃ label c, e = .storage label ∧ w.Admits label ∧
      (M.storage genesis).exec w.storage label = some c ∧
      w' = ⟨c, eventAfter w.newBlockNotify label, w.pendingAfter label⟩) ∨
    ∃ i, e = .notify i ∧ i ∈ w.pending ∧
      w' = { w with newBlockNotify := w.newBlockNotify.notify, pending := w.pending.erase i } := by
  cases e with
  | storage label =>
    unfold watchStep at h
    dsimp only at h
    split at h
    · next hadmits =>
      obtain ⟨c, hexec, rfl⟩ := Option.map_eq_some_iff.mp h
      exact .inl ⟨label, c, rfl, hadmits, hexec, rfl⟩
    · cases h
  | notify i =>
    unfold watchStep at h
    dsimp only at h
    split at h
    · next hpending =>
      cases h
      exact .inr ⟨i, rfl, hpending.2, rfl⟩
    · cases h

/-- A step of a waited-for storage is a step of the storage, a read of a waiter, or none of it. -/
theorem watched_exec {c c' : Procs.Config Nat (Watched Sealed Unsealed) (Waiter Sealed)}
    {label : (Nat × WaitEvent) ⊕ WatchEvent Sealed}
    (h : (M.watched genesis).exec c label = some c') :
    (M.storage genesis).lts.Reaches c.shared.storage c'.shared.storage := by
  rcases label with ⟨j, e⟩ | e
  · obtain ⟨w', waiter', hstep, rfl⟩ := Procs.exec_proc.mp h
    obtain ⟨hcrash, hcases⟩ := waiterStep_cases (j := j) hstep
    exact (hcases.storage hcrash).2.2.2.2
  · obtain ⟨w', hstep, rfl⟩ := Procs.exec_env.mp h
    rcases watchStep_cases hstep with ⟨label, c', -, -, hexec, rfl⟩ | ⟨i, -, -, rfl⟩
    · exact (Lts.Reaches.refl _).tail hexec
    · exact Lts.Reaches.refl _

theorem watched_reaches {c c' : Procs.Config Nat (Watched Sealed Unsealed) (Waiter Sealed)}
    (h : (M.watched genesis).lts.Reaches c c') :
    (M.storage genesis).lts.Reaches c.shared.storage c'.shared.storage :=
  h.invariant (I := fun c' => (M.storage genesis).lts.Reaches c.shared.storage c'.shared.storage)
    (Lts.Reaches.refl _) fun _ _ _ hreach hexec => hreach.trans (watched_exec hexec)

/-- The storage of a reachable state is a reachable storage. -/
theorem watched_storage {c : Procs.Config Nat (Watched Sealed Unsealed) (Waiter Sealed)}
    (hc : (M.watched genesis).lts.Reachable c) :
    (M.storage genesis).lts.Reachable c.shared.storage := by
  obtain ⟨c₀, hinit, hrun⟩ := hc
  exact (Lts.Reachable.init hinit.1.1).trans (watched_reaches hrun)

/-! ## Nobody sleeps through a block -/

/-- What is known of a waiter by where it is. -/
def WaiterOk (M : Melstf Sealed Unsealed) (genesis : GenesisConfig) (w : Watched Sealed Unsealed)
    (_ : Nat) : Waiter Sealed → Prop
  | .idle => True
  | .made h phase =>
    match phase with
    | .start => True
    | .looking ticket => ticket ≤ w.newBlockNotify.notified
    | .querying ticket => ticket ≤ w.newBlockNotify.notified
    | .found _ blk => w.storage.shared.db.block? h = some blk
    | .asleep ticket => w.newBlockNotify.Watches (w.Stored h) (∃ i, w.Owes i) ticket
    | .returned s => M.getState genesis w.storage.shared.db h = .ok (some s)
    | .gone => True

theorem block_of_getState {db : Tables} {h : Nat} {s : Sealed}
    (hs : M.getState genesis db h = .ok (some s)) : ∃ blk, db.block? h = some blk := by
  unfold getState at hs
  cases hblk : db.block? h with
  | none =>
    rw [hblk] at hs
    cases hs
  | some blk => exact ⟨blk, rfl⟩

theorem WaiterOk.moves {j : Nat} {waiter : Waiter Sealed} (hB : M.BuildsStates)
    (hok : M.SharedOk genesis w.storage.shared) (h : M.WaiterOk genesis w j waiter)
    (hmoves : w.Moves w') : M.WaiterOk genesis w' j waiter := by
  cases waiter with
  | idle => trivial
  | made height phase =>
    cases phase with
    | start => trivial
    | looking ticket => exact Nat.le_trans h hmoves.event
    | querying ticket => exact Nat.le_trans h hmoves.event
    | found ticket blk => exact hmoves.db.block? h
    | asleep ticket => exact Event.Watches.step h hmoves.event (hmoves.stored height) hmoves.owes
    | returned s =>
      have hle : height ≤ w.storage.shared.db.highestHeight := by
        obtain ⟨blk, hblk⟩ := block_of_getState h
        exact ((hok.chain.wellFormed hB).block_le hblk).2
      exact (getState_isPrefix hmoves.db hle).trans h
    | gone => trivial

/-- A waiter that has returned keeps its state when the storage is opened again. -/
theorem WaiterOk.reopened {j : Nat} {waiter : Waiter Sealed} (h : M.WaiterOk genesis w j waiter)
    (hdb : w'.storage.shared.db = w.storage.shared.db) :
    M.WaiterOk genesis w' j (waiterMoved (.storage (.inr .reopen)) waiter) := by
  cases waiter with
  | idle => trivial
  | made height phase =>
    cases phase with
    | returned s =>
      show M.getState genesis w'.storage.shared.db height = .ok (some s)
      rw [hdb]
      exact h
    | _ => trivial

/-- What is shared but the blocks read stays as it is. -/
theorem moves_of_same (hB : M.BuildsStates) (hok : M.SharedOk genesis w.storage.shared)
    (hdb : w'.storage.shared.db = w.storage.shared.db)
    (hevent : w'.newBlockNotify = w.newBlockNotify) (howes : ∀ i, w.Owes i → w'.Owes i) :
    w.Moves w' where
  db := hdb ▸ (hok.chain.wellFormed hB).isPrefix_refl
  event := Nat.le_of_eq (congrArg Event.notified hevent.symm)
  stored h hh := .inl (by unfold Watched.Stored at hh ⊢; rwa [hdb] at hh)
  owes := fun ⟨i, hi⟩ => .inl ⟨i, howes i hi⟩

/-- **One step of a waiter**: it listens before it reads, so what it does not find is committed
after that. -/
theorem WaiterStep.ok {e : WaitEvent} {j : Nat} {waiter waiter' : Waiter Sealed}
    (hok : M.SharedOk genesis w.storage.shared) (hwaiter : M.WaiterOk genesis w j waiter)
    (h : M.WaiterStep genesis w e waiter w' waiter') : M.WaiterOk genesis w' j waiter' := by
  cases h with
  | call => trivial
  | listen => exact Nat.le_refl _
  | hit hblk => exact hok.cache hblk
  | miss => exact hwaiter
  | row hblk => exact hblk
  | sleep hblk =>
    refine Event.Watches.of_unmet hwaiter ?_
    rintro ⟨blk, hstored⟩
    rw [hblk] at hstored
    cases hstored
  | @rebuilt h _ blk s hs =>
    have hblk : w.storage.shared.db.block? h = some blk := hwaiter
    show M.getState genesis w.storage.shared.db h = _
    unfold getState
    rw [hblk]
    simp only [hs, Except.map]
  | mismatch => exact hwaiter
  | wake => trivial
  | drop => trivial

/-! ## The calls of the storage -/

/-- A call that is not dropped too late commits only to notify, and still has to until it does. -/
theorem CallStep.owes {i : Nat} {e : CallEvent} {call call' : Call Sealed} {sh sh' : Shared Unsealed}
    (horphan : call.isOrphan = false) (hdrop : e = .drop → call.hasStarted = false)
    (h : M.CallStep genesis i sh e call sh' call') :
    call'.isOrphan = false ∧ (sh'.db = sh.db ∨ call'.isRebasing = true) ∧
      (call.isRebasing = true → call'.isRebasing = true ∨ e = .rebase) := by
  cases h with
  | readCheck _ hr =>
    refine ⟨rfl, .inl ?_, nofun⟩
    cases hr <;> rfl
  | readRebase => exact ⟨rfl, .inr rfl, fun _ => .inl rfl⟩
  | commit => exact ⟨rfl, .inr rfl, nofun⟩
  | orphanCommit => cases horphan
  | orphanFail => cases horphan
  | rebase => exact ⟨rfl, .inl rfl, fun _ => .inr rfl⟩
  | dropRunning => cases hdrop rfl
  | dropRebasing => cases hdrop rfl
  | _ => exact ⟨rfl, .inl rfl, nofun⟩

theorem eventAfter_of_ne {event : Event} {label : (Nat × CallEvent) ⊕ StorageEvent Sealed}
    (hlabel : label ≠ .inr .reopen) : eventAfter event label = event := by
  unfold eventAfter
  split
  · exact absurd rfl hlabel
  · rfl

theorem mem_pendingAfter {label : (Nat × CallEvent) ⊕ StorageEvent Sealed} {i : Nat}
    (hlabel : label ≠ .inr .reopen) (hi : i ∈ w.pending) : i ∈ w.pendingAfter label := by
  unfold Watched.pendingAfter
  split
  · exact List.mem_cons_of_mem _ hi
  · exact absurd rfl hlabel
  · exact hi

/-- **One step of the storage**, other than opening it again. -/
theorem exec_moves (hB : M.BuildsStates) {label : (Nat × CallEvent) ⊕ StorageEvent Sealed}
    {c : Procs.Config Nat (Shared Unsealed) (Call Sealed)}
    (hreach : (M.storage genesis).lts.Reachable w.storage)
    (horphans : ∀ i, (w.storage.procs i).isOrphan = false)
    (hdrop : ∀ i, label = .inl (i, .drop) → (w.storage.procs i).hasStarted = false)
    (hlabel : label ≠ .inr .reopen) (hexec : (M.storage genesis).exec w.storage label = some c) :
    w.Moves ⟨c, eventAfter w.newBlockNotify label, w.pendingAfter label⟩ ∧
      ∀ i, (c.procs i).isOrphan = false := by
  obtain ⟨hok, hcalls⟩ := storage_reachable hB hreach
  have hgrows := (exec_ok hB hok hcalls hexec).2.2.db
  have hevent : (eventAfter w.newBlockNotify label).notified = w.newBlockNotify.notified :=
    congrArg Event.notified (eventAfter_of_ne hlabel)
  rcases label with ⟨i, e⟩ | d
  · obtain ⟨sh', call', hstep, rfl⟩ := Procs.exec_proc.mp hexec
    obtain ⟨horphan', hcommit, howes⟩ := (callStep_cases hstep).2.owes (horphans i)
      (fun he => hdrop i (he ▸ rfl))
    have hself : ∀ k, (w.storage.procs k).isRebasing = true →
        (Function.update w.storage.procs i call' k).isRebasing = true ∨
          k ∈ w.pendingAfter (.inl (i, e)) := by
      intro k hk
      by_cases hki : k = i
      · subst hki
        rw [Function.update_self]
        rcases howes hk with hr | rfl
        · exact .inl hr
        · exact .inr List.mem_cons_self
      · rw [Function.update_of_ne hki]
        exact .inl hk
    refine ⟨⟨hgrows, Nat.le_of_eq hevent.symm, fun h hh => ?_, ?_⟩, fun k => ?_⟩
    · rcases hcommit with hdb | hr
      · left
        unfold Watched.Stored at hh ⊢
        rwa [show (⟨sh', Function.update w.storage.procs i call'⟩ :
          Procs.Config Nat (Shared Unsealed) (Call Sealed)).shared.db = w.storage.shared.db
            from hdb] at hh
      · refine .inr ⟨i, .inl ?_⟩
        show (Function.update w.storage.procs i call' i).isRebasing = true
        rw [Function.update_self]
        exact hr
    · rintro ⟨k, hk | hk⟩
      · exact .inl ⟨k, hself k hk⟩
      · exact .inl ⟨k, .inr (mem_pendingAfter hlabel hk)⟩
    · have hall : ∀ k, (Function.update w.storage.procs i call' k).isOrphan = false :=
        (Function.forall_update_iff _ fun _ (call : Call Sealed) => call.isOrphan = false).mpr
          ⟨horphan', fun k _ => horphans k⟩
      exact hall k
  · obtain ⟨sh', hstep, rfl⟩ := Procs.exec_env.mp hexec
    have hd : d ≠ .reopen := fun heq => hlabel (heq ▸ rfl)
    have hprocs : ∀ k, (M.storage genesis).moved d (w.storage.procs k) = w.storage.procs k :=
      fun k => moved_of_ne_reopen hd _
    have hdb := (storageStep_same hB hok hstep).2.1
    refine ⟨moves_of_same hB hok hdb (eventAfter_of_ne hlabel) fun k hk => ?_, fun k => ?_⟩
    · unfold Watched.Owes
      dsimp only
      rw [hprocs]
      exact hk.imp id (mem_pendingAfter hlabel)
    · dsimp only
      rw [hprocs]
      exact horphans k

theorem orphan_reopened (call : Call Sealed) : (ended .reopen call).isOrphan = false := by
  cases call with
  | idle => rfl
  | made blk cproof phase => cases phase <;> rfl

theorem waiterMoved_of_ne {e : WatchEvent Sealed} (he : e ≠ .storage (.inr .reopen))
    (waiter : Waiter Sealed) : waiterMoved e waiter = waiter := by
  unfold waiterMoved
  split
  · exact absurd rfl he
  · exact absurd rfl he
  · rfl

theorem watched_outline (hB : M.BuildsStates) :
    (M.watched genesis).Outline RunsToEnd
      (fun w => (M.storage genesis).lts.Reachable w.storage ∧
        ∀ i, (w.storage.procs i).isOrphan = false)
      (M.WaiterOk genesis) fun _ w w' => w.Moves w' where
  init {w} hinit := by
    refine ⟨Lts.Reachable.init hinit.1, fun i => ?_⟩
    rw [hinit.1.2]
    rfl
  start _ := trivial
  step {c j e w' waiter'} _ _ hinv hlocal hstep := by
    obtain ⟨hreach, horphans⟩ := hinv
    have hok := (storage_reachable hB hreach).1
    obtain ⟨hcrash, hcases⟩ := waiterStep_cases (j := j) hstep
    obtain ⟨hevent, hpending, hprocs, hdb, hreaches⟩ := hcases.storage hcrash
    have hmoves : c.shared.Moves w' := by
      refine moves_of_same hB hok hdb hevent fun i hi => ?_
      unfold Watched.Owes at hi ⊢
      rwa [hprocs, hpending]
    refine ⟨⟨hreach.trans hreaches, fun i => ?_⟩, hcases.ok hok hlocal, hmoves⟩
    rw [hprocs]
    exact horphans i
  stable _ hinv hmoves hlocal :=
    WaiterOk.moves hB (storage_reachable hB hinv.1).1 hlocal hmoves
  env {c d w'} _ hgood hinv hlocal hstep := by
    obtain ⟨hreach, horphans⟩ := hinv
    have hok := (storage_reachable hB hreach).1
    rcases watchStep_cases hstep with ⟨label, c', rfl, -, hexec, rfl⟩ | ⟨i, rfl, -, rfl⟩
    · have hreach' : (M.storage genesis).lts.Reachable c' := hreach.tail hexec
      by_cases hlabel : label = .inr .reopen
      · subst hlabel
        obtain ⟨sh', hstep', rfl⟩ := Procs.exec_env.mp hexec
        have hreopen : M.storageStep genesis .reopen c.shared.storage.shared = some sh' := hstep'
        have hdb := (storageStep_same hB hok hreopen).2.1
        exact ⟨⟨hreach', fun i => orphan_reopened _⟩, fun j => (hlocal j).reopened hdb⟩
      · have hdrop : ∀ i, label = .inl (i, .drop) →
            (c.shared.storage.procs i).hasStarted = false := by
          rintro i rfl
          exact hgood
        obtain ⟨hmoves, horphans'⟩ := exec_moves hB hreach horphans hdrop hlabel hexec
        refine ⟨⟨hreach', horphans'⟩, fun j => ?_⟩
        have hmoved : (M.watched genesis).moved (.storage label) (c.procs j) = c.procs j :=
          waiterMoved_of_ne (by simpa using hlabel) _
        rw [hmoved]
        exact (hlocal j).moves hB hok hmoves
    · have hmoves : c.shared.Moves { c.shared with
          newBlockNotify := c.shared.newBlockNotify.notify, pending := c.shared.pending.erase i } :=
        ⟨(hok.chain.wellFormed hB).isPrefix_refl, Nat.le_succ _, fun _ hh => .inl hh,
          fun _ => .inr (Nat.lt_succ_self _)⟩
      exact ⟨⟨hreach, horphans⟩, fun j => (hlocal j).moves hB hok hmoves⟩

/-- **No lost wake-up.** In the runs whose calls are not dropped once their transaction runs, no waiter
sleeps through its block: when nobody has woken it and its block is committed, some call that has
committed still has to notify. And what a waiter returns is the committed state of its height. -/
theorem no_lost_wakeup (hB : M.BuildsStates)
    {c : Procs.Config Nat (Watched Sealed Unsealed) (Waiter Sealed)}
    (hc : ((M.watched genesis).lts.guard RunsToEnd).Reachable c) :
    (∀ j, ¬ Stuck c.shared (c.procs j)) ∧
      ∀ j h s, c.procs j = .made h (.returned s) →
        M.getState genesis c.shared.storage.shared.db h = .ok (some s) ∧
          (M.header s).height = h := by
  obtain ⟨⟨hreach, -⟩, hlocal⟩ := (watched_outline hB).reachable hc
  constructor
  · rintro j ⟨h, ticket, hasleep, hnotified, hstored, howes⟩
    have hwaiter := hlocal j
    rw [hasleep] at hwaiter
    rcases Event.Watches.covered hwaiter hstored with hwoken | ⟨i, hi⟩
    · exact hnotified hwoken
    · exact howes i hi
  · intro j h s hreturned
    have hstate : M.getState genesis c.shared.storage.shared.db h = .ok (some s) := by
      have hwaiter := hlocal j
      rw [hreturned] at hwaiter
      exact hwaiter
    refine ⟨hstate, ?_⟩
    have hwf := (storage_reachable hB hreach).1.chain.wellFormed hB
    obtain ⟨blk, hblk⟩ := block_of_getState hstate
    apply hwf.stateAt_height hB
    have hpos : 0 < h := (hwf.block_le hblk).1
    unfold stateAt
    rw [if_pos hpos, hstate]

end Melstf

namespace Ledger

/-- Nobody has called anything yet. -/
def freshWatched :
    Procs.Config Nat (Watched Ledger.Sealed Ledger.Unsealed) (Waiter Ledger.Sealed) where
  shared := ⟨ledger.freshStorage threeStakers, Event.new, []⟩
  procs _ := .idle

/-- A waiter for the first block goes to sleep, the block is applied, the waiter gets its state. -/
def waitedRun : List ((Nat × WaitEvent) ⊕ WatchEvent Ledger.Sealed) :=
  [.inl (0, .call 1), .inl (0, .listen), .inl (0, .lookup), .inl (0, .query)] ++
    (Melstf.soloCall 0 0 (firstBlock 1) (proofBy [1, 2, 3] (firstBlock 1))).map
      (fun label => .inr (.storage label)) ++
    [.inr (.notify 0), .inl (0, .wake), .inl (0, .listen), .inl (0, .lookup), .inl (0, .query),
      .inl (0, .rebuild)]

def waited : Procs.Config Nat (Watched Ledger.Sealed Ledger.Unsealed) (Waiter Ledger.Sealed) :=
  ((ledger.watched threeStakers).run freshWatched waitedRun).getD freshWatched

theorem waited_reachable :
    ((ledger.watched threeStakers).lts.guard RunsToEnd).Reachable waited :=
  ⟨freshWatched, ⟨⟨⟨rfl, rfl⟩, rfl, rfl⟩, rfl⟩, Procs.reaches_end_guarded (by decide +kernel)⟩

end Ledger

namespace Melstf

theorem no_lost_wakeup_waited :
    let c : Procs.Config Nat (Watched Ledger.Sealed Ledger.Unsealed) (Waiter Ledger.Sealed) :=
      Ledger.waited
    (∀ j, ¬ Stuck c.shared (c.procs j)) ∧
      ∀ j h s, c.procs j = .made h (.returned s) →
        ledger.getState Ledger.threeStakers c.shared.storage.shared.db h = .ok (some s) ∧
          (ledger.header s).height = h :=
  no_lost_wakeup ledger_builds Ledger.waited_reachable

end Melstf

end Melnode
