import Melnode.Lib.Procs

/-!
# The connection pool

The 16 connections of a `Storage` live in a channel. An operation receives one, moves it into a
closure for `smol::unblock`, and the closure, once a worker thread runs it, wraps it in a guard that
sends it back when the closure ends, with `Ok` or `Err`. A future can be dropped at any await: a
running closure goes on to its end, a queued one is dropped together with the connection it owns,
and the guard that would have sent it back was never made.
-/

namespace Melnode

open Lib

/-- The closures that own a connection. -/
inductive Closure where
  -- `select max(height) from history`
  | maxHeight
  -- `select txhash, height, stake_doc from stakes ..`
  | stakeRows
  -- `select block from history ..`
  | blockRow
  -- `select proof from consensus_proofs ..`
  | proofRow
  -- the transaction of `apply_block`
  | insertBlock
  deriving DecidableEq, Repr

/-- The closure runs under `autoretry`: an `Err` starts it anew. -/
def Closure.retried : Closure → Bool
  | .insertBlock => false
  | _ => true

/-- The operations of `Storage` that use connections. -/
inductive Operation where
  | highestHeight
  | getStakeset
  | getBlock
  | getConsensus
  | getState
  | highestState
  | applyBlock
  deriving DecidableEq, Repr

/-- The closures of an operation, in order. -/
def Operation.closures : Operation → List Closure
  | .highestHeight => [.maxHeight]
  | .getStakeset => [.stakeRows]
  | .getBlock => [.blockRow]
  | .getConsensus => [.proofRow]
  | .getState => [.blockRow, .stakeRows]
  | .highestState => [.maxHeight, .blockRow, .stakeRows]
  | .applyBlock =>
    [.maxHeight, .blockRow, .stakeRows, .insertBlock, .maxHeight, .blockRow, .stakeRows]

/-- Where a task that runs operations is. -/
inductive PoolTask where
  | idle
  -- at an await without a connection, with closures still to run
  | ready (rest : List Closure)
  -- the closure owns a connection, no thread has started it
  | queued (closure : Closure) (rest : List Closure)
  -- the closure runs under its guard
  | running (closure : Closure) (rest : List Closure)
  -- the future was dropped, the closure still runs
  | orphan (closure : Closure)
  deriving DecidableEq, Repr

/-- The connections a task holds. -/
def PoolTask.held : PoolTask → Nat
  | .idle => 0
  | .ready _ => 0
  | .queued _ _ => 1
  | .running _ _ => 1
  | .orphan _ => 1

def PoolTask.isQueued : PoolTask → Bool
  | .queued _ _ => true
  | _ => false

/-- The pool. -/
structure Pool where
  chan : Nat
  -- closures dropped while they were queued; nothing reads it
  lost : Nat
  deriving DecidableEq, Repr

inductive PoolEvent where
  | invoke (op : Operation)
  -- the next closure is not needed: a cached block, height zero, or a check that failed
  | skip
  | recv
  | start
  -- the closure ends with `Ok` or `Err`
  | finish (ok : Bool)
  | done
  | drop
  deriving DecidableEq, Repr

/-- One step of a task. -/
def poolStep (e : PoolEvent) (pool : Pool) (task : PoolTask) : Option (Pool × PoolTask) :=
  match e, task with
  | .invoke op, .idle => some (pool, .ready op.closures)
  | .skip, .ready (_ :: rest) => some (pool, .ready rest)
  | .recv, .ready (closure :: rest) =>
    if 0 < pool.chan then some ({ pool with chan := pool.chan - 1 }, .queued closure rest) else none
  | .start, .queued closure rest => some (pool, .running closure rest)
  | .finish ok, .running closure rest =>
    let pool := { pool with chan := pool.chan + 1 }
    if ok then some (pool, .ready rest)
    else if closure.retried then some (pool, .ready (closure :: rest))
    else some (pool, .ready [])
  | .finish _, .orphan _ => some ({ pool with chan := pool.chan + 1 }, .idle)
  | .done, .ready [] => some (pool, .idle)
  | .drop, .ready _ => some (pool, .idle)
  -- the connection goes with the closure
  | .drop, .queued _ _ => some ({ pool with lost := pool.lost + 1 }, .idle)
  | .drop, .running closure _ => some (pool, .orphan closure)
  | _, _ => none

/-- The pool that `Storage::open` fills, and any number of tasks. -/
def connectionPool : Procs Nat Pool PoolTask PoolEvent Empty where
  init pool := pool = ⟨16, 0⟩
  start := .idle
  step _ := poolStep
  env d _ := d.elim
  moved d _ := d.elim

/-- The step does not drop a future whose closure is still queued. -/
def NoQueuedDrop (c : Procs.Config Nat Pool PoolTask) : (Nat × PoolEvent) ⊕ Empty → Prop
  | .inl (i, e) => e = .drop → (c.procs i).isQueued = false
  | .inr _ => True

instance (c : Procs.Config Nat Pool PoolTask) : ∀ label, Decidable (NoQueuedDrop c label)
  | .inl (i, e) => inferInstanceAs (Decidable (e = .drop → (c.procs i).isQueued = false))
  | .inr d => d.elim

theorem poolStep_balance {e : PoolEvent} {pool pool' : Pool} {task task' : PoolTask}
    (h : poolStep e pool task = some (pool', task')) :
    pool'.chan + pool'.lost + task'.held = pool.chan + pool.lost + task.held := by
  unfold poolStep at h
  split at h
  · cases h
    rfl
  · cases h
    rfl
  · split at h
    · cases h
      simp only [PoolTask.held]
      omega
    · cases h
  · cases h
    rfl
  · dsimp only at h
    split at h
    · cases h
      simp only [PoolTask.held]
      omega
    · split at h
      · cases h
        simp only [PoolTask.held]
        omega
      · cases h
        simp only [PoolTask.held]
        omega
  · cases h
    simp only [PoolTask.held]
    omega
  · cases h
    rfl
  · cases h
    rfl
  · cases h
    simp only [PoolTask.held]
    omega
  · cases h
    rfl
  · cases h

theorem poolStep_lost {e : PoolEvent} {pool pool' : Pool} {task task' : PoolTask}
    (hdrop : e = .drop → task.isQueued = false)
    (h : poolStep e pool task = some (pool', task')) : pool'.lost = pool.lost := by
  unfold poolStep at h
  split at h
  · cases h
    rfl
  · cases h
    rfl
  · split at h
    · cases h
      rfl
    · cases h
  · cases h
    rfl
  · dsimp only at h
    split at h
    · cases h
      rfl
    · split at h
      · cases h
        rfl
      · cases h
        rfl
  · cases h
    rfl
  · cases h
    rfl
  · cases h
    rfl
  · cases hdrop rfl
  · cases h
    rfl
  · cases h

/-- The channel, the tasks and the dropped closures together always hold 16 connections. -/
theorem pool_conserves : connectionPool.Conserves (fun pool => pool.chan + pool.lost)
    PoolTask.held 16 where
  init hinit := by
    cases hinit
    rfl
  start := rfl
  step hstep := poolStep_balance hstep
  env {d} := d.elim
  moved {d} := d.elim

/-- Without queued drops nothing is lost. -/
theorem pool_lost {c : Procs.Config Nat Pool PoolTask}
    (hc : (connectionPool.lts.guard NoQueuedDrop).Reachable c) : c.shared.lost = 0 := by
  refine hc.invariant (I := fun c => c.shared.lost = 0) ?_ ?_
  · rintro c ⟨hinit, -⟩
    cases hc : c.shared
    rw [hc] at hinit
    cases hinit
    rfl
  · rintro c (⟨i, e⟩ | d) c' hlost ⟨hgood, hexec⟩
    · obtain ⟨pool', task', hstep, rfl⟩ := Procs.exec_proc.mp hexec
      exact (poolStep_lost hgood hstep).trans hlost
    · exact d.elim

/-- **No connection is lost** in any run where no future is dropped while its closure is queued: the
channel and the operations in progress hold 16 at every moment, so with no operation in progress all
16 are in the channel. -/
theorem pool_balanced {c : Procs.Config Nat Pool PoolTask}
    (hc : (connectionPool.lts.guard NoQueuedDrop).Reachable c) :
    Procs.Balanced Pool.chan PoolTask.held 16 c ∧
      ((∀ i, c.procs i = .idle) → c.shared.chan = 16) := by
  have hlost := pool_lost hc
  have hbal : Procs.Balanced Pool.chan PoolTask.held 16 c := by
    obtain ⟨F, hout, hsum⟩ := pool_conserves.reachable hc.of_guard
    have hsum' : c.shared.chan + c.shared.lost + ∑ i ∈ F, (c.procs i).held = 16 := hsum
    rw [hlost, Nat.add_zero] at hsum'
    exact ⟨F, hout, hsum'⟩
  refine ⟨hbal, fun hidle => hbal.free_eq ?_⟩
  intro i
  rw [hidle i]
  rfl

/-- A full pool and no task started. -/
def freshPool : Procs.Config Nat Pool PoolTask := ⟨⟨16, 0⟩, fun _ => .idle⟩

/-- Where the steps lead from a full pool. -/
def poolAfter (labels : List ((Nat × PoolEvent) ⊕ Empty)) : Procs.Config Nat Pool PoolTask :=
  (connectionPool.run freshPool labels).getD freshPool

/-- One task inside the transaction of `apply_block`, another dropped while its query runs. -/
def busyPool : List ((Nat × PoolEvent) ⊕ Empty) :=
  [.inl (0, .invoke .applyBlock), .inl (0, .recv), .inl (0, .start), .inl (0, .finish true),
    .inl (0, .skip), .inl (0, .skip), .inl (0, .recv), .inl (0, .start),
    .inl (1, .invoke .getBlock), .inl (1, .recv), .inl (1, .start), .inl (1, .drop)]

theorem pool_balanced_busy :
    Procs.Balanced Pool.chan PoolTask.held 16 (poolAfter busyPool) ∧
      ((∀ i, (poolAfter busyPool).procs i = .idle) → (poolAfter busyPool).shared.chan = 16) :=
  pool_balanced ⟨freshPool, ⟨rfl, rfl⟩, Procs.reaches_end_guarded (by decide)⟩

/-- A `get_block` dropped while its closure is queued: no operation is in progress and a connection
is gone. -/
theorem pool_queuedDrop :
    let c := poolAfter [.inl (0, .invoke .getBlock), .inl (0, .recv), .inl (0, .drop)]
    connectionPool.lts.Reachable c ∧ (∀ i, c.procs i = .idle) ∧ c.shared.chan = 15 ∧
      ¬ Procs.Balanced Pool.chan PoolTask.held 16 c := by
  intro c
  have hidle : ∀ i, c.procs i = .idle := by
    intro i
    by_cases hi : i = 0
    · subst hi
      rfl
    · show Function.update (Function.update (Function.update freshPool.procs 0 _) 0 _) 0 _ i = _
      rw [Function.update_of_ne hi, Function.update_of_ne hi, Function.update_of_ne hi]
      rfl
  have hchan : c.shared.chan = 15 := rfl
  refine ⟨⟨freshPool, ⟨rfl, rfl⟩, Procs.reaches_end (by decide)⟩, hidle, hchan, ?_⟩
  intro hbal
  have hfull := hbal.free_eq fun i => by rw [hidle i]; rfl
  rw [hchan] at hfull
  cases hfull

end Melnode
