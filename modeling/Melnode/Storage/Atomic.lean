import Mathlib.Data.List.Forall2
import Melnode.Storage.Holder
import Melnode.Storage.Waiters

/-!
# `apply_block` is atomic

A call that returns an error can be taken out of the run: what is left goes through and ends with the
same tables, mempool, cache and notifications, and with every other call and waiter where it was
(`applyBlock_atomic`). All that such a call does for others is to read blocks for its
`highest_state`, as any `get_block` does.
-/

namespace Melnode

open Lib

variable {Sealed Unsealed : Type}

/-! ## Taking a call out of a run -/

/-- What is shared if call `i` were not there to hold the lock. -/
def Shared.unlockedBy (sh : Shared Unsealed) (i : Nat) : Shared Unsealed :=
  { sh with lock := if sh.lock = some i then none else sh.lock }

section Unlocked

variable (sh : Shared Unsealed) (i : Nat)

@[simp] theorem unlockedBy_db : (sh.unlockedBy i).db = sh.db := rfl

@[simp] theorem unlockedBy_fetched : (sh.unlockedBy i).fetched = sh.fetched := rfl

@[simp] theorem unlockedBy_mempool : (sh.unlockedBy i).mempool = sh.mempool := rfl

@[simp] theorem unlockedBy_crashed : (sh.unlockedBy i).crashed = sh.crashed := rfl

theorem unlockedBy_release :
    ({ sh with lock := none } : Shared Unsealed).unlockedBy i =
      { sh.unlockedBy i with lock := none } := by
  simp [Shared.unlockedBy]

end Unlocked

/-- As if call `i` had not been made. -/
def Watched.without (w : Watched Sealed Unsealed) (i : Nat) : Watched Sealed Unsealed :=
  { w with storage := ⟨w.storage.shared.unlockedBy i, Function.update w.storage.procs i .idle⟩ }

/-- The step is one of call `i`. -/
def OfCall (i : Nat) : (Nat × WaitEvent) ⊕ WatchEvent Sealed → Prop
  | .inr (.storage (.inl (k, _))) => k = i
  | .inr (.notify k) => k = i
  | _ => False

/-- What is left of a step when call `i` is taken out: its own steps go, but for the blocks it
reads. -/
inductive Unmakes (i : Nat) : (Nat × WaitEvent) ⊕ WatchEvent Sealed →
    List ((Nat × WaitEvent) ⊕ WatchEvent Sealed) → Prop where
  | other {label : (Nat × WaitEvent) ⊕ WatchEvent Sealed} (h : ¬ OfCall i label) :
      Unmakes i label [label]
  | own (e : CallEvent) : Unmakes i (.inr (.storage (.inl (i, e)))) []
  | read (cached : Bool) (h : Nat) :
      Unmakes i (.inr (.storage (.inl (i, .read cached)))) [.inr (.storage (.inr (.fetch h)))]

theorem Unmakes.ne_notify {i : Nat} {label : (Nat × WaitEvent) ⊕ WatchEvent Sealed}
    {piece : List ((Nat × WaitEvent) ⊕ WatchEvent Sealed)} (h : Unmakes i label piece) :
    label ≠ .inr (.notify i) := by
  rintro rfl
  cases h with
  | other h => exact h rfl

/-- Before the call has committed, and once it has returned an error; a process that has crashed in
between is not going to return. -/
def MayFail (crashed : Bool) : Call Sealed → Prop
  | .idle => True
  | .made _ _ phase =>
    match phase with
    | .waiting => crashed = false
    | .checking _ => crashed = false
    | .queued => crashed = false
    | .running => crashed = false
    | .returned (.error _) => True
    | .returned (.ok ()) => False
    | .rebasing _ => False
    | .dropped => False
    | .orphan => False

theorem MayFail.of_crashed {b b' : Bool} {call : Call Sealed} (h : MayFail b' call)
    (hb : b' = false → b = false) : MayFail b call := by
  cases call with
  | idle => trivial
  | made blk cproof phase =>
    cases phase with
    | waiting => exact hb h
    | checking r => exact hb h
    | queued => exact hb h
    | running => exact hb h
    | returned res =>
      cases res with
      | error e => trivial
      | ok => exact h
    | _ => exact h

theorem MayFail.of_reopened {b b' : Bool} {call : Call Sealed}
    (h : MayFail b' (Melstf.ended .reopen call)) : MayFail b call := by
  cases call with
  | idle => trivial
  | made blk cproof phase =>
    cases phase with
    | returned res =>
      cases res with
      | error e => trivial
      | ok => exact h
    | _ => exact h.elim

namespace Melstf

variable {M : Melstf Sealed Unsealed} {genesis : GenesisConfig}
variable {sh sh' : Shared Unsealed} {i : Nat}

/-! ## The other steps -/

/-- Reads do not look at the lock. -/
theorem readStep_unlocked {cached : Bool} {r r' : Reading Sealed}
    (h : M.readStep genesis cached sh r = some (sh', r')) :
    M.readStep genesis cached (sh.unlockedBy i) r = some (sh'.unlockedBy i, r') := by
  cases r with
  | start =>
    cases h
    rfl
  | height k =>
    unfold readStep at h ⊢
    dsimp only at h ⊢
    split at h
    · next hk =>
      rw [if_pos hk]
      split at h
      · next hcached =>
        rw [if_pos hcached]
        obtain ⟨blk, hblk, heq⟩ := Option.map_eq_some_iff.mp h
        cases heq
        exact Option.map_eq_some_iff.mpr ⟨blk, hblk, rfl⟩
      · next hcached =>
        rw [if_neg hcached]
        rw [unlockedBy_db]
        split at h <;> (cases h; rfl)
    · next hk =>
      rw [if_neg hk]
      cases h
      rfl
  | block k blk =>
    unfold readStep at h ⊢
    dsimp only at h ⊢
    rw [unlockedBy_db]
    split at h <;> (cases h; rfl)
  | done s => cases h

/-- **A step of another call** is a step without call `i`. -/
theorem callStep_unlocked {k : Nat} (hki : k ≠ i) {e : CallEvent} {call call' : Call Sealed}
    (h : M.callStep genesis k e sh call = some (sh', call')) :
    M.callStep genesis k e (sh.unlockedBy i) call = some (sh'.unlockedBy i, call') := by
  unfold callStep at h ⊢
  split at h
  · cases h
  · next hcrash =>
    rw [if_neg (show ¬ (sh.unlockedBy i).crashed = true from hcrash)]
    split at h
    · cases h
      rfl
    · split at h
      · next hlock =>
        cases h
        rw [if_pos (show (sh.unlockedBy i).lock = none by simp [Shared.unlockedBy, hlock])]
        simp [Shared.unlockedBy, hki]
      · cases h
    · obtain ⟨⟨sh₁, r₁⟩, hr, heq⟩ := Option.map_eq_some_iff.mp h
      cases heq
      exact Option.map_eq_some_iff.mpr ⟨_, readStep_unlocked hr, rfl⟩
    · split at h
      · cases h
        rfl
      · cases h
        simp only [unlockedBy_release]
      · cases h
        rfl
    · cases h
      rfl
    · obtain ⟨db, hins, heq⟩ := Option.map_eq_some_iff.mp h
      cases heq
      exact Option.map_eq_some_iff.mpr ⟨db, hins, rfl⟩
    · obtain ⟨db, hins, heq⟩ := Option.map_eq_some_iff.mp h
      cases heq
      exact Option.map_eq_some_iff.mpr ⟨db, hins, rfl⟩
    · cases h
      simp only [unlockedBy_release]
    · cases h
      simp only [unlockedBy_release]
    · cases h
      rfl
    · obtain ⟨⟨sh₁, r₁⟩, hr, heq⟩ := Option.map_eq_some_iff.mp h
      cases heq
      exact Option.map_eq_some_iff.mpr ⟨_, readStep_unlocked hr, rfl⟩
    · cases h
      have hrebase : ∀ mempool, ({ sh with mempool := mempool, lock := none } : Shared Unsealed).unlockedBy i =
          { sh.unlockedBy i with mempool := mempool, lock := none } := by
        intro mempool
        simp [Shared.unlockedBy]
      simp only [hrebase]
    · cases h
      rfl
    · cases h
      simp only [unlockedBy_release]
    · cases h
      simp only [unlockedBy_release]
    · cases h
      simp only [unlockedBy_release]
    · cases h
      simp only [unlockedBy_release]
    · cases h

/-- **A step of the environment** is one without call `i`. -/
theorem storageStep_unlocked {d : StorageEvent Sealed}
    (h : M.storageStep genesis d sh = some sh') :
    M.storageStep genesis d (sh.unlockedBy i) = some (sh'.unlockedBy i) := by
  cases d with
  | fetch k =>
    unfold storageStep at h ⊢
    dsimp only at h ⊢
    rw [unlockedBy_crashed]
    split at h
    · cases h
    · next hcrash =>
      rw [if_neg hcrash]
      obtain ⟨blk, hblk, rfl⟩ := Option.map_eq_some_iff.mp h
      exact Option.map_eq_some_iff.mpr ⟨blk, hblk, rfl⟩
  | fill k blk =>
    unfold storageStep at h ⊢
    dsimp only at h ⊢
    rw [unlockedBy_crashed, unlockedBy_fetched]
    split at h
    · next hmem =>
      rw [if_pos hmem]
      cases h
      rfl
    · cases h
  | evict k =>
    cases h
    rfl
  | sendTx tx =>
    unfold storageStep at h ⊢
    dsimp only at h ⊢
    rw [unlockedBy_crashed]
    split at h
    · cases h
    · next hcrash =>
      rw [if_neg hcrash]
      rw [unlockedBy_mempool]
      split at h
      · cases h
        rfl
      · cases h
        rfl
  | rebaseMempool s =>
    unfold storageStep at h ⊢
    dsimp only at h ⊢
    rw [unlockedBy_crashed]
    split at h
    · cases h
    · next hcrash =>
      rw [if_neg hcrash]
      cases h
      rfl
  | kill =>
    cases h
    rfl
  | reopen =>
    unfold storageStep at h ⊢
    dsimp only at h ⊢
    rw [unlockedBy_crashed]
    split at h
    · next hcrash =>
      rw [if_pos hcrash]
      cases h
      simp [Shared.unlockedBy, openStorage]
    · cases h

variable {w w' : Watched Sealed Unsealed}

/-- **A step of a waiter** is one without call `i`. -/
theorem waiterStep_without {j : Nat} {e : WaitEvent} {waiter waiter' : Waiter Sealed}
    (h : M.waiterStep genesis j e w waiter = some (w', waiter')) :
    M.waiterStep genesis j e (w.without i) waiter = some (w'.without i, waiter') := by
  unfold waiterStep at h ⊢
  dsimp only at h ⊢
  split at h
  · cases h
  · next hcrash =>
    rw [if_neg (show ¬ (w.without i).storage.shared.crashed = true from hcrash)]
    split at h
    · cases h
      rfl
    · cases h
      rfl
    · have hcache : (w.without i).storage.shared.oldCache = w.storage.shared.oldCache := rfl
      rw [hcache]
      split at h <;> (cases h; rfl)
    · have hdb : (w.without i).storage.shared.db = w.storage.shared.db := rfl
      rw [hdb]
      split at h <;> (cases h; rfl)
    · have hdb : (w.without i).storage.shared.db = w.storage.shared.db := rfl
      rw [hdb]
      split at h <;> (cases h; rfl)
    · have hevent : (w.without i).newBlockNotify = w.newBlockNotify := rfl
      rw [hevent]
      split at h
      · next hnotified =>
        rw [if_pos hnotified]
        cases h
        rfl
      · cases h
    · cases h
    · cases h
    · cases h
      rfl
    · cases h

/-- A step of the storage in which call `i` takes no part. -/
theorem exec_without {label : (Nat × CallEvent) ⊕ StorageEvent Sealed}
    (hlabel : ∀ e, label ≠ .inl (i, e)) {c : Procs.Config Nat (Shared Unsealed) (Call Sealed)}
    (h : (M.storage genesis).exec w.storage label = some c) :
    (M.storage genesis).exec (w.without i).storage label =
      some ⟨c.shared.unlockedBy i, Function.update c.procs i .idle⟩ := by
  rcases label with ⟨k, e⟩ | d
  · have hki : k ≠ i := fun heq => hlabel e (heq ▸ rfl)
    obtain ⟨sh', call', hstep, rfl⟩ := Procs.exec_proc.mp h
    refine Procs.exec_proc.mpr ⟨sh'.unlockedBy i, call', ?_, ?_⟩
    · show M.callStep genesis k e (w.storage.shared.unlockedBy i)
        (Function.update w.storage.procs i .idle k) = _
      rw [Function.update_of_ne hki]
      exact callStep_unlocked hki hstep
    · show (⟨sh'.unlockedBy i, _⟩ : Procs.Config Nat (Shared Unsealed) (Call Sealed)) =
        ⟨sh'.unlockedBy i, Function.update (Function.update w.storage.procs i .idle) k call'⟩
      rw [Function.update_comm hki]
  · obtain ⟨sh', hstep, rfl⟩ := Procs.exec_env.mp h
    refine Procs.exec_env.mpr ⟨sh'.unlockedBy i, storageStep_unlocked hstep, ?_⟩
    have hprocs : Function.update (fun k => ended d (w.storage.procs k)) i .idle =
        fun k => ended d (Function.update w.storage.procs i .idle k) := by
      funext k
      by_cases hki : k = i
      · subst hki
        rw [Function.update_self, Function.update_self]
        cases d <;> rfl
      · rw [Function.update_of_ne hki, Function.update_of_ne hki]
    show (⟨sh'.unlockedBy i, Function.update (fun k => ended d (w.storage.procs k)) i .idle⟩ :
      Procs.Config Nat (Shared Unsealed) (Call Sealed)) = ⟨sh'.unlockedBy i,
        fun k => ended d (Function.update w.storage.procs i .idle k)⟩
    rw [hprocs]

/-- **A step of anybody else** is one without call `i`. -/
theorem watched_without {c c' : Procs.Config Nat (Watched Sealed Unsealed) (Waiter Sealed)}
    {label : (Nat × WaitEvent) ⊕ WatchEvent Sealed} (hlabel : ¬ OfCall i label)
    (h : (M.watched genesis).exec c label = some c') :
    (M.watched genesis).exec ⟨c.shared.without i, c.procs⟩ label =
      some ⟨c'.shared.without i, c'.procs⟩ := by
  rcases label with ⟨j, e⟩ | e
  · obtain ⟨w', waiter', hstep, rfl⟩ := Procs.exec_proc.mp h
    exact Procs.exec_proc.mpr ⟨w'.without i, waiter', waiterStep_without (j := j) hstep, rfl⟩
  · obtain ⟨w', hstep, rfl⟩ := Procs.exec_env.mp h
    refine Procs.exec_env.mpr ⟨w'.without i, ?_, rfl⟩
    cases e with
    | storage label =>
      have hown : ∀ e, label ≠ .inl (i, e) := by
        rintro e rfl
        exact hlabel rfl
      have hstep : M.watchStep genesis (.storage label) c.shared = some w' := hstep
      rcases watchStep_cases hstep with ⟨_, c', ⟨⟩, hadmits, hexec, rfl⟩ | ⟨_, heq, -⟩
      · show M.watchStep genesis (.storage label) (c.shared.without i) = _
        unfold watchStep
        dsimp only
        rw [if_pos (show (c.shared.without i).Admits label from hadmits), exec_without hown hexec]
        rfl
      · cases heq
    | notify k =>
      have hki : k ≠ i := hlabel
      show M.watchStep genesis (.notify k) (c.shared.without i) = _
      have hstep : M.watchStep genesis (.notify k) c.shared = some w' := hstep
      unfold watchStep at hstep ⊢
      dsimp only at hstep ⊢
      split at hstep
      · next hpending =>
        rw [if_pos (show (c.shared.without i).storage.shared.crashed = false ∧
          k ∈ (c.shared.without i).pending from hpending)]
        cases hstep
        rfl
      · cases hstep

/-! ## The steps of the call itself -/

/-- **A step of a call that is going to return an error** leaves what is shared as it is, but for the
lock and the blocks it reads. -/
theorem CallStep.unmade {e : CallEvent} {call call' : Call Sealed} (hcrash : sh.crashed = false)
    (hlock : sh.lock = some i ↔ call.holds = true) (hafter : MayFail sh'.crashed call')
    (h : M.CallStep genesis i sh e call sh' call') :
    MayFail sh.crashed call ∧ e ≠ .rebase ∧
      (sh'.unlockedBy i = sh.unlockedBy i ∨ ∃ cached k, e = .read cached ∧
        M.storageStep genesis (.fetch k) (sh.unlockedBy i) = some (sh'.unlockedBy i)) := by
  have hrelease : sh.lock = some i →
      ({ sh with lock := none } : Shared Unsealed).unlockedBy i = sh.unlockedBy i := by
    intro hi
    simp [Shared.unlockedBy, hi]
  cases h with
  | invoke => exact ⟨trivial, nofun, .inl rfl⟩
  | acquire hfree =>
    refine ⟨hcrash, nofun, .inl ?_⟩
    simp [Shared.unlockedBy, hfree]
  | readCheck cached hr =>
    refine ⟨hcrash, nofun, ?_⟩
    cases hr with
    | @fetched k blk h0 hblk =>
      refine .inr ⟨cached, k, rfl, ?_⟩
      unfold storageStep
      dsimp only
      rw [if_neg (by rw [unlockedBy_crashed, hcrash]; exact Bool.false_ne_true), unlockedBy_db, hblk]
      rfl
    | missing => cases hafter
    | mismatch => cases hafter
    | _ => exact .inl rfl
  | accept => exact ⟨hcrash, nofun, .inl rfl⟩
  | reject => exact ⟨hcrash, nofun, .inl (hrelease (hlock.mpr rfl))⟩
  | panic => cases hafter
  | start => exact ⟨hcrash, nofun, .inl rfl⟩
  | commit => exact hafter.elim
  | orphanCommit => exact hafter.elim
  | failQueued => exact ⟨hcrash, nofun, .inl (hrelease (hlock.mpr rfl))⟩
  | failRunning => exact ⟨hcrash, nofun, .inl (hrelease (hlock.mpr rfl))⟩
  | orphanFail => exact hafter.elim
  | readRebase => exact hafter.elim
  | rebase => exact hafter.elim
  | dropWaiting => exact hafter.elim
  | dropRunning => exact hafter.elim
  | dropChecking => exact hafter.elim
  | dropQueued => exact hafter.elim
  | dropRebasing => exact hafter.elim

theorem crashed_of_storageStep {d : StorageEvent Sealed} (hd : d ≠ .reopen)
    (h : M.storageStep genesis d sh = some sh') (hafter : sh'.crashed = false) :
    sh.crashed = false := by
  cases storageStep_cases h with
  | fetch hcrash => exact hcrash
  | fill hcrash => exact hcrash
  | evict => exact hafter
  | sendTx _ _ hcrash => exact hcrash
  | rebaseMempool _ hcrash => exact hcrash
  | kill => cases hafter
  | reopen => exact absurd rfl hd

section Steps

variable {c c' : Procs.Config Nat (Watched Sealed Unsealed) (Waiter Sealed)}

/-- Before a state in which the call may still fail, it may. -/
theorem mayFail_back (hc : (M.watched genesis).lts.Reachable c)
    {label : (Nat × WaitEvent) ⊕ WatchEvent Sealed} (h : (M.watched genesis).exec c label = some c')
    (hafter : MayFail c'.shared.storage.shared.crashed (c'.shared.storage.procs i)) :
    MayFail c.shared.storage.shared.crashed (c.shared.storage.procs i) := by
  rcases label with ⟨j, e⟩ | e
  · obtain ⟨w', waiter', hstep, rfl⟩ := Procs.exec_proc.mp h
    obtain ⟨hcrash, hcases⟩ := waiterStep_cases (j := j) hstep
    have hprocs : w'.storage.procs i = c.shared.storage.procs i :=
      congrFun (hcases.storage hcrash).2.2.1 i
    have hafter : MayFail w'.storage.shared.crashed (w'.storage.procs i) := hafter
    rw [hprocs] at hafter
    exact hafter.of_crashed fun _ => hcrash
  · obtain ⟨w', hstep, rfl⟩ := Procs.exec_env.mp h
    rcases watchStep_cases hstep with ⟨label, c', -, -, hexec, rfl⟩ | ⟨k, -, -, rfl⟩
    · have hafter : MayFail c'.shared.crashed (c'.procs i) := hafter
      rcases label with ⟨k, e⟩ | d
      · obtain ⟨sh', call', hcallStep, rfl⟩ := Procs.exec_proc.mp hexec
        obtain ⟨hcrash, hcases⟩ := callStep_cases hcallStep
        have hafter : MayFail sh'.crashed (Function.update c.shared.storage.procs k call' i) := hafter
        by_cases hik : i = k
        · subst hik
          rw [Function.update_self] at hafter
          exact (hcases.unmade hcrash (lock_iff (watched_storage hc) i) hafter).1
        · rw [Function.update_of_ne hik] at hafter
          exact hafter.of_crashed fun _ => hcrash
      · obtain ⟨sh', hstorage, rfl⟩ := Procs.exec_env.mp hexec
        have hafter : MayFail sh'.crashed (ended d (c.shared.storage.procs i)) := hafter
        by_cases hd : d = .reopen
        · subst hd
          exact hafter.of_reopened
        · rw [moved_of_ne_reopen hd] at hafter
          exact hafter.of_crashed (crashed_of_storageStep hd hstorage)
    · exact hafter

/-- A step of the storage and the calls that have still to notify after it. -/
theorem pendingAfter_returned {label : (Nat × CallEvent) ⊕ StorageEvent Sealed}
    {c : Procs.Config Nat (Shared Unsealed) (Call Sealed)}
    (hexec : (M.storage genesis).exec w.storage label = some c)
    (hpending : ∀ i ∈ w.pending, ∃ blk cproof,
      w.storage.procs i = .made blk cproof (.returned (.ok ()))) :
    ∀ i ∈ w.pendingAfter label, ∃ blk cproof, c.procs i = .made blk cproof (.returned (.ok ())) := by
  intro i hi
  rcases label with ⟨k, e⟩ | d
  · obtain ⟨sh', call', hcallStep, rfl⟩ := Procs.exec_proc.mp hexec
    have hcases := (callStep_cases hcallStep).2
    show ∃ blk cproof, Function.update w.storage.procs k call' i = _
    by_cases hik : i = k
    · subst hik
      rw [Function.update_self]
      have hbefore : e = .rebase ∨ i ∈ w.pending := by
        cases e with
        | rebase => exact .inl rfl
        | _ => exact .inr hi
      rcases hbefore with rfl | hi
      · generalize w.storage.procs i = call at hcases
        cases hcases
        exact ⟨_, _, rfl⟩
      · -- a call that has returned takes no step
        obtain ⟨blk, cproof, hcall⟩ := hpending i hi
        rw [hcall] at hcases
        cases hcases
    · rw [Function.update_of_ne hik]
      refine hpending i ?_
      cases e with
      | rebase => exact List.mem_of_ne_of_mem hik hi
      | _ => exact hi
  · obtain ⟨sh', -, rfl⟩ := Procs.exec_env.mp hexec
    show ∃ blk cproof, ended d (w.storage.procs i) = _
    cases d with
    | reopen => cases hi
    | _ => exact hpending i hi

/-- A call that has still to notify has returned. -/
theorem pending_returned (hc : (M.watched genesis).lts.Reachable c) :
    ∀ i ∈ c.shared.pending, ∃ blk cproof,
      c.shared.storage.procs i = .made blk cproof (.returned (.ok ())) := by
  refine hc.invariant (I := fun c => ∀ i ∈ c.shared.pending, ∃ blk cproof,
    c.shared.storage.procs i = .made blk cproof (.returned (.ok ()))) ?_ ?_
  · rintro c ⟨⟨-, -, hpending⟩, -⟩ i hi
    rw [hpending] at hi
    cases hi
  · rintro c (⟨j, e⟩ | e) c' hpending hexec i hi
    · obtain ⟨w', waiter', hstep, rfl⟩ := Procs.exec_proc.mp hexec
      obtain ⟨hcrash, hcases⟩ := waiterStep_cases (j := j) hstep
      obtain ⟨-, hsame, hprocs, -⟩ := hcases.storage hcrash
      have hi : i ∈ w'.pending := hi
      show ∃ blk cproof, w'.storage.procs i = _
      rw [hprocs]
      exact hpending i (hsame ▸ hi)
    · obtain ⟨w', hstep, rfl⟩ := Procs.exec_env.mp hexec
      rcases watchStep_cases hstep with ⟨label, c', -, -, hstorage, rfl⟩ | ⟨k, -, -, rfl⟩
      · exact pendingAfter_returned hstorage hpending i hi
      · exact hpending i (List.mem_of_mem_erase hi)

theorem own_exec {e : CallEvent}
    (h : (M.watched genesis).exec c (.inr (.storage (.inl (i, e)))) = some c') :
    ∃ sh' call', M.callStep genesis i e c.shared.storage.shared (c.shared.storage.procs i) =
        some (sh', call') ∧
      c' = ⟨⟨⟨sh', Function.update c.shared.storage.procs i call'⟩, c.shared.newBlockNotify,
        c.shared.pendingAfter (.inl (i, e))⟩, c.procs⟩ := by
  obtain ⟨w', hstep, rfl⟩ := Procs.exec_env.mp h
  have hstep : M.watchStep genesis (.storage (.inl (i, e))) c.shared = some w' := hstep
  rcases watchStep_cases hstep with ⟨_, c', ⟨⟩, -, hexec, rfl⟩ | ⟨_, heq, -⟩
  · obtain ⟨sh', call', hcallStep, rfl⟩ := Procs.exec_proc.mp hexec
    have hwaiters : (fun j => (M.watched genesis).moved (.storage (.inl (i, e))) (c.procs j)) =
        c.procs := by
      funext j
      exact waiterMoved_of_ne (e := .storage (.inl (i, e))) (by simp) (c.procs j)
    refine ⟨sh', call', hcallStep, ?_⟩
    rw [hwaiters]
    rfl
  · cases heq

/-- **A step of the call** is no step without it, or a read of a block. -/
theorem unmade_step (hc : (M.watched genesis).lts.Reachable c) {e : CallEvent}
    (h : (M.watched genesis).exec c (.inr (.storage (.inl (i, e)))) = some c')
    (hafter : MayFail c'.shared.storage.shared.crashed (c'.shared.storage.procs i)) :
    ∃ piece, Unmakes i (.inr (.storage (.inl (i, e)))) piece ∧
      (M.watched genesis).run ⟨c.shared.without i, c.procs⟩ piece =
        some ⟨c'.shared.without i, c'.procs⟩ := by
  obtain ⟨sh', call', hcallStep, rfl⟩ := own_exec h
  obtain ⟨hcrash, hcases⟩ := callStep_cases hcallStep
  have hafter : MayFail sh'.crashed (Function.update c.shared.storage.procs i call' i) := hafter
  rw [Function.update_self] at hafter
  obtain ⟨-, hrebase, hshared⟩ := hcases.unmade hcrash (lock_iff (watched_storage hc) i) hafter
  have hpending : c.shared.pendingAfter (.inl (i, e)) = c.shared.pending := by
    cases e with
    | rebase => exact absurd rfl hrebase
    | _ => rfl
  rw [hpending]
  unfold Watched.without
  dsimp only
  rw [Function.update_idem]
  rcases hshared with hsame | ⟨cached, k, rfl, hfetch⟩
  · refine ⟨[], .own e, ?_⟩
    rw [hsame]
    rfl
  · refine ⟨[.inr (.storage (.inr (.fetch k)))], .read cached k, ?_⟩
    refine Lts.run_cons (Procs.exec_env.mpr ⟨_, ?_, rfl⟩) rfl
    show M.watchStep genesis (.storage (.inr (.fetch k))) (c.shared.without i) = _
    unfold watchStep
    dsimp only
    rw [if_pos (show (c.shared.without i).Admits (.inr (.fetch k)) from trivial)]
    exact Option.map_eq_some_iff.mpr ⟨_, Procs.exec_env.mpr ⟨_, hfetch, rfl⟩, rfl⟩

/-- A call that may still fail owes no notification. -/
theorem notify_other (hc : (M.watched genesis).lts.Reachable c) {k : Nat}
    (h : (M.watched genesis).exec c (.inr (.notify k)) = some c')
    (hbefore : MayFail c.shared.storage.shared.crashed (c.shared.storage.procs i)) : k ≠ i := by
  rintro rfl
  obtain ⟨w', hstep, -⟩ := Procs.exec_env.mp h
  have hstep : M.watchStep genesis (.notify k) c.shared = some w' := hstep
  rcases watchStep_cases hstep with ⟨_, _, heq, -⟩ | ⟨_, ⟨⟩, hpending, -⟩
  · cases heq
  · obtain ⟨blk, cproof, hreturned⟩ := pending_returned hc k hpending
    rw [hreturned] at hbefore
    exact hbefore

/-- The call can be taken out of a run up to a state in which it may still fail. -/
theorem run_without (hc : (M.watched genesis).lts.Reachable c)
    {labels : List ((Nat × WaitEvent) ⊕ WatchEvent Sealed)}
    (hrun : (M.watched genesis).run c labels = some c')
    (hafter : MayFail c'.shared.storage.shared.crashed (c'.shared.storage.procs i)) :
    ∃ pieces, List.Forall₂ (Unmakes i) labels pieces ∧
      (M.watched genesis).run ⟨c.shared.without i, c.procs⟩ pieces.flatten =
        some ⟨c'.shared.without i, c'.procs⟩ := by
  refine (Lts.run_replaced (I := (M.watched genesis).lts.Reachable)
    (G := fun c => MayFail c.shared.storage.shared.crashed (c.shared.storage.procs i))
    (f := fun c => ⟨c.shared.without i, c.procs⟩) ?_ ?_ ?_ hc hrun hafter).2
  · exact fun t label t' ht hexec => ht.tail hexec
  · exact fun t label t' ht hexec hgood => mayFail_back ht hexec hgood
  · intro t label t' ht hbefore hgood hexec
    by_cases hlabel : OfCall i label
    · rcases label with ⟨j, e⟩ | ⟨⟨k, e⟩ | d⟩ | k
      · exact hlabel.elim
      · obtain rfl : k = i := hlabel
        exact unmade_step ht hexec hgood
      · exact hlabel.elim
      · exact absurd hlabel (notify_other ht hexec hbefore)
    · exact ⟨[label], .other hlabel, Lts.run_cons (watched_without hlabel hexec) rfl⟩

end Steps

/-- A call that has not been made can be taken out. -/
theorem without_idle (hc : (M.storage genesis).lts.Reachable w.storage)
    (hidle : w.storage.procs i = .idle) : w.without i = w := by
  have hlock : w.storage.shared.lock ≠ some i := by
    intro hi
    have hholds := (lock_iff hc i).mp hi
    rw [hidle] at hholds
    cases hholds
  obtain ⟨⟨sh, procs⟩, event, pending⟩ := w
  have hlock : sh.lock ≠ some i := hlock
  have hidle : procs i = .idle := hidle
  unfold Watched.without Shared.unlockedBy
  dsimp only
  rw [if_neg hlock, ← hidle, Function.update_eq_self]

/-- **`apply_block` is atomic.** Let call `i` be made and return in a run. If it returns an error, it can
be taken out: the rest of the run goes through and ends with the same tables, cache and mempool, with
the same notifications, and with every other call and waiter where it was; and the call has notified
nobody. If it returns `Ok`, its block is stored with everything it brings, and it is the only one the
call has committed; its commit has put it on top of the chain, and it has rebased the mempool on the
state of that block while it was on top. -/
theorem applyBlock_atomic (hB : M.BuildsStates)
    {c c' : Procs.Config Nat (Watched Sealed Unsealed) (Waiter Sealed)}
    (hc : (M.watched genesis).lts.Reachable c)
    {labels : List ((Nat × WaitEvent) ⊕ WatchEvent Sealed)}
    (hrun : (M.watched genesis).run c labels = some c') {blk : Block} {cproof : ConsensusProof}
    {res : Except ApplyError Unit} (hidle : c.shared.storage.procs i = .idle)
    (hreturned : c'.shared.storage.procs i = .made blk cproof (.returned res)) :
    (∀ e, res = .error e →
      (c'.shared.without i).storage.shared = c'.shared.storage.shared ∧
        (.inr (.notify i)) ∉ labels ∧
        ∃ pieces, List.Forall₂ (Unmakes i) labels pieces ∧
          (M.watched genesis).run c pieces.flatten = some ⟨c'.shared.without i, c'.procs⟩) ∧
      (res = .ok () →
        M.Holds c'.shared.storage.shared.db blk cproof ∧
          (∀ h, c'.shared.storage.shared.committer[h]? = some i ↔ h = blk.header.height) ∧
          ∃ before committed rebasing after,
            (M.storage genesis).lts.Reaches c.shared.storage before ∧
            M.Applies genesis i blk cproof before committed rebasing after ∧
            (M.storage genesis).lts.Reaches after c'.shared.storage) := by
  have hreach := watched_storage hc
  have hreaches : (M.watched genesis).lts.Reaches c c' := Procs.reaches_of_run hrun
  constructor
  · rintro e rfl
    have hafter : MayFail c'.shared.storage.shared.crashed (c'.shared.storage.procs i) := by
      rw [hreturned]
      trivial
    obtain ⟨pieces, hpieces, hwithout⟩ := run_without hc hrun hafter
    rw [without_idle hreach hidle] at hwithout
    refine ⟨?_, ?_, pieces, hpieces, hwithout⟩
    · have hlock : c'.shared.storage.shared.lock ≠ some i := by
        intro hi
        have hholds := (lock_iff (hreach.trans (watched_reaches hreaches)) i).mp hi
        rw [hreturned] at hholds
        cases hholds
      show c'.shared.storage.shared.unlockedBy i = c'.shared.storage.shared
      unfold Shared.unlockedBy
      rw [if_neg hlock]
    · intro hmem
      have hother : List.Forall₂ (fun label piece => label ≠ .inr (.notify i) ∧ Unmakes i label piece)
          labels pieces := hpieces.imp fun label piece h => ⟨h.ne_notify, h⟩
      exact (List.forall₂_and_left _ _).mp hother |>.1 _ hmem rfl
  · rintro rfl
    exact applied_of_returned hB hreach (watched_reaches hreaches) hidle hreturned

end Melstf

/-- The call has returned an error. -/
def Call.hasFailed : Call Sealed → Bool
  | .made _ _ (.returned (.error _)) => true
  | _ => false

theorem Call.eq_of_hasFailed {call : Call Sealed} (h : call.hasFailed = true) :
    ∃ blk cproof e, call = .made blk cproof (.returned (.error e)) := by
  unfold Call.hasFailed at h
  split at h
  · exact ⟨_, _, _, rfl⟩
  · cases h

namespace Ledger

/-- A call with the first block and no votes is rejected before another puts the block in. -/
def rejectedCalls : List ((Nat × CallEvent) ⊕ StorageEvent Ledger.Sealed) :=
  Melstf.ofCall 0 ([.invoke (firstBlock 1) (proofBy [] (firstBlock 1)), .acquire] ++
      Melstf.reads 0 ++ [.check]) ++
    Melstf.soloCall 1 0 (firstBlock 1) (proofBy [1, 2, 3] (firstBlock 1))

def rejectedRun : List ((Nat × WaitEvent) ⊕ WatchEvent Ledger.Sealed) :=
  rejectedCalls.map fun label => .inr (.storage label)

def rejected : Procs.Config Nat (Watched Ledger.Sealed Ledger.Unsealed) (Waiter Ledger.Sealed) :=
  ((ledger.watched threeStakers).run freshWatched rejectedRun).getD freshWatched

theorem rejected_run : (ledger.watched threeStakers).run freshWatched rejectedRun = some rejected := by
  have hrun : ((ledger.watched threeStakers).run freshWatched rejectedRun).isSome = true := by
    decide +kernel
  obtain ⟨c', hc'⟩ := Option.isSome_iff_exists.mp hrun
  unfold rejected
  rw [hc', Option.getD_some]

theorem rejected_failed : (rejected.shared.storage.procs 0).hasFailed = true := by
  decide +kernel

theorem freshWatched_reachable : (ledger.watched threeStakers).lts.Reachable freshWatched :=
  Lts.Reachable.init ⟨⟨⟨rfl, rfl⟩, rfl, rfl⟩, rfl⟩

end Ledger

namespace Melstf

theorem applyBlock_atomic_rejected :
    (Ledger.rejected.shared.without 0).storage.shared = Ledger.rejected.shared.storage.shared ∧
      (.inr (.notify 0)) ∉ Ledger.rejectedRun ∧
      ∃ pieces, List.Forall₂ (Unmakes 0) Ledger.rejectedRun pieces ∧
        (ledger.watched Ledger.threeStakers).run Ledger.freshWatched pieces.flatten =
          some ⟨Ledger.rejected.shared.without 0, Ledger.rejected.procs⟩ := by
  obtain ⟨blk, cproof, e, hreturned⟩ := Call.eq_of_hasFailed Ledger.rejected_failed
  exact (applyBlock_atomic ledger_builds Ledger.freshWatched_reachable Ledger.rejected_run rfl
    hreturned).1 e rfl

end Melstf

end Melnode
