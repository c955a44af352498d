import Melnode.Lib.Procs
import Melnode.Storage.Chain
import Melnode.Storage.Mempool

/-!
# A storage and its concurrent calls

`storage M genesis` is one `Storage` with any number of `apply_block` calls in any interleaving. A
step of a call is what it does between two points where others can act: the lock, each read of
`highest_state`, the start and the end of the closure with the SQL transaction, the rebase. A call
can fail before its transaction commits, and its future can be dropped anywhere: a closure that runs
by then still runs to its end (`orphan`), one that is still queued does not. The environment reads
blocks, fills and evicts the block cache, sends transactions, rebases the mempool, and kills and
reopens the process.
-/

namespace Melnode

open Lib

variable {Sealed Unsealed : Type}

/-! ## States -/

/-- How far a call has got in `highest_state`. -/
inductive Reading (Sealed : Type) where
  | start
  | height (h : Nat)
  | block (h : Nat) (blk : Block)
  | done (s : Sealed)
  deriving DecidableEq

/-- Where an `apply_block` call is. -/
inductive Phase (Sealed : Type) where
  -- `self.lock.lock().await`
  | waiting
  -- before the checks
  | checking (r : Reading Sealed)
  -- accepted; waiting for a connection or a worker thread
  | queued
  -- the closure with the SQL transaction runs
  | running
  -- committed; `highest_state` before the rebase
  | rebasing (r : Reading Sealed)
  | returned (res : Except ApplyError Unit)
  | dropped
  -- the future is gone, the closure runs
  | orphan

/-- One call, before and after it is made. -/
inductive Call (Sealed : Type) where
  | idle
  | made (blk : Block) (cproof : ConsensusProof) (phase : Phase Sealed)

/-- What the calls share. -/
structure Shared (Unsealed : Type) where
  db : Tables
  oldCache : Table Nat Block
  -- blocks some `get_block` has read and not put into the cache yet
  fetched : List (Nat × Block)
  mempool : Mempool Unsealed
  lock : Option Nat
  crashed : Bool
  -- which call committed a height; nothing reads it
  committer : Table Nat Nat

/-- The steps of a call. -/
inductive CallEvent where
  | invoke (blk : Block) (cproof : ConsensusProof)
  | acquire
  -- one read of `highest_state`, from the cache where it has the choice
  | read (cached : Bool)
  | check
  | start
  | commit
  -- an error of the pool or of SQLite before the commit
  | fail
  | rebase
  | drop
  deriving DecidableEq

/-- The steps of everything else. -/
inductive StorageEvent (Sealed : Type) where
  | fetch (h : Nat)
  | fill (h : Nat) (blk : Block)
  | evict (h : Nat)
  | sendTx (tx : Transaction)
  -- `mempool_mut().rebase(..)` from outside `apply_block`
  | rebaseMempool (s : Sealed)
  | kill
  | reopen

namespace Melstf

variable (M : Melstf Sealed Unsealed) (genesis : GenesisConfig)

/-! ## Steps -/

/-- `Storage::open` on a database file. -/
def openStorage (db : Tables) (committer : Table Nat Nat) : Shared Unsealed where
  db := Tables.opened genesis db
  oldCache := ∅
  fetched := []
  mempool := Mempool.new (M.realize genesis)
  lock := none
  crashed := false
  committer := committer

/-- One read of `highest_state`; a panic crashes the process. -/
def readStep (cached : Bool) (sh : Shared Unsealed) :
    Reading Sealed → Option (Shared Unsealed × Reading Sealed)
  | .start => some (sh, .height sh.db.highestHeight)
  | .height h =>
    if 0 < h then
      if cached then
        sh.oldCache[h]?.map fun blk => (sh, .block h blk)
      else
        match sh.db.block? h with
        | some blk => some ({ sh with fetched := (h, blk) :: sh.fetched }, .block h blk)
        | none => some ({ sh with crashed := true }, .height h)
    else
      some (sh, .done (M.genesisState genesis))
  | .block h blk =>
    match M.rebuildState blk (M.getStakeset genesis sh.db h) with
    | .ok s => some (sh, .done s)
    | .error _ => some ({ sh with crashed := true }, .block h blk)
  | .done _ => none

/-- One step of call `i`. -/
def callStep (i : Nat) (e : CallEvent) (sh : Shared Unsealed) (call : Call Sealed) :
    Option (Shared Unsealed × Call Sealed) :=
  if sh.crashed then none else
  match e, call with
  | .invoke blk cproof, .idle => some (sh, .made blk cproof .waiting)
  | .acquire, .made blk cproof .waiting =>
    if sh.lock = none then
      some ({ sh with lock := some i }, .made blk cproof (.checking .start))
    else
      none
  | .read cached, .made blk cproof (.checking r) =>
    (M.readStep genesis cached sh r).map fun (sh, r) => (sh, .made blk cproof (.checking r))
  | .check, .made blk cproof (.checking (.done s)) =>
    match M.checkBlock s blk cproof with
    | .ok _ => some (sh, .made blk cproof .queued)
    | .error (.bail e) => some ({ sh with lock := none }, .made blk cproof (.returned (.error e)))
    | .error (.panic _) => some ({ sh with crashed := true }, .made blk cproof (.checking (.done s)))
  | .start, .made blk cproof .queued => some (sh, .made blk cproof .running)
  | .commit, .made blk cproof .running =>
    (M.insertBlock sh.db blk cproof).map fun db =>
      ({ sh with db := db, committer := sh.committer.insert blk.header.height i },
        .made blk cproof (.rebasing .start))
  | .commit, .made blk cproof .orphan =>
    (M.insertBlock sh.db blk cproof).map fun db =>
      ({ sh with db := db, committer := sh.committer.insert blk.header.height i },
        .made blk cproof .dropped)
  | .fail, .made blk cproof .queued =>
    some ({ sh with lock := none }, .made blk cproof (.returned (.error .database)))
  | .fail, .made blk cproof .running =>
    some ({ sh with lock := none }, .made blk cproof (.returned (.error .database)))
  | .fail, .made blk cproof .orphan => some (sh, .made blk cproof .dropped)
  | .read cached, .made blk cproof (.rebasing r) =>
    (M.readStep genesis cached sh r).map fun (sh, r) => (sh, .made blk cproof (.rebasing r))
  | .rebase, .made blk cproof (.rebasing (.done s)) =>
    some ({ sh with mempool := Mempool.rebase M s, lock := none },
      .made blk cproof (.returned (.ok ())))
  | .drop, .made blk cproof .waiting => some (sh, .made blk cproof .dropped)
  | .drop, .made blk cproof .running => some ({ sh with lock := none }, .made blk cproof .orphan)
  | .drop, .made blk cproof (.checking _) =>
    some ({ sh with lock := none }, .made blk cproof .dropped)
  | .drop, .made blk cproof .queued => some ({ sh with lock := none }, .made blk cproof .dropped)
  | .drop, .made blk cproof (.rebasing _) =>
    some ({ sh with lock := none }, .made blk cproof .dropped)
  | _, _ => none

/-- One step of the environment. -/
def storageStep : StorageEvent Sealed → Shared Unsealed → Option (Shared Unsealed)
  | .fetch h, sh =>
    if sh.crashed then none else
    (sh.db.block? h).map fun blk => { sh with fetched := (h, blk) :: sh.fetched }
  | .fill h blk, sh =>
    if sh.crashed = false ∧ (h, blk) ∈ sh.fetched then
      some { sh with oldCache := sh.oldCache.insert h blk }
    else
      none
  | .evict h, sh => some { sh with oldCache := sh.oldCache.erase h }
  | .sendTx tx, sh =>
    if sh.crashed then none else
    match Mempool.applyTransaction M sh.mempool tx with
    | (.error (.panic _), mempool) => some { sh with mempool := mempool, crashed := true }
    | (_, mempool) => some { sh with mempool := mempool }
  | .rebaseMempool s, sh =>
    if sh.crashed then none else some { sh with mempool := Mempool.rebase M s }
  | .kill, sh => some { sh with crashed := true }
  | .reopen, sh => if sh.crashed then some (M.openStorage genesis sh.db sh.committer) else none

/-- What the end of the process leaves of a call. -/
def ended : StorageEvent Sealed → Call Sealed → Call Sealed
  | .reopen, .made blk cproof (.returned res) => .made blk cproof (.returned res)
  | .reopen, .made blk cproof _ => .made blk cproof .dropped
  | _, call => call

/-- A storage opened on a fresh database, and its calls. -/
def storage : Procs Nat (Shared Unsealed) (Call Sealed) CallEvent (StorageEvent Sealed) where
  init sh := sh = M.openStorage genesis Tables.fresh ∅
  start := .idle
  step := M.callStep genesis
  env := M.storageStep genesis
  moved := ended

/-! ## An undisturbed call -/

/-- The reads of `highest_state` at a height. -/
def reads (h : Nat) : List CallEvent :=
  if h = 0 then [.read false, .read false] else [.read false, .read false, .read false]

/-- Steps of call `i`. -/
def ofCall (i : Nat) (events : List CallEvent) : List ((Nat × CallEvent) ⊕ StorageEvent Sealed) :=
  events.map fun e => .inl (i, e)

/-- The steps of call `i` from height `h` to `h + 1` when nobody interferes. -/
def soloCall (i h : Nat) (blk : Block) (cproof : ConsensusProof) :
    List ((Nat × CallEvent) ⊕ StorageEvent Sealed) :=
  ofCall i ([.invoke blk cproof, .acquire] ++ reads h ++ [.check, .start, .commit] ++
    reads (h + 1) ++ [.rebase])

/-- A storage just opened on a fresh database. -/
def freshStorage : Procs.Config Nat (Shared Unsealed) (Call Sealed) where
  shared := M.openStorage genesis Tables.fresh ∅
  procs _ := .idle

/-- A run from a freshly opened storage. -/
def storageAfter (labels : List ((Nat × CallEvent) ⊕ StorageEvent Sealed)) :
    Procs.Config Nat (Shared Unsealed) (Call Sealed) :=
  ((M.storage genesis).run (M.freshStorage genesis) labels).getD (M.freshStorage genesis)

theorem storageAfter_reachable {labels : List ((Nat × CallEvent) ⊕ StorageEvent Sealed)}
    (h : ((M.storage genesis).run (M.freshStorage genesis) labels).isSome) :
    (M.storage genesis).lts.Reachable (M.storageAfter genesis labels) :=
  ⟨M.freshStorage genesis, ⟨rfl, rfl⟩, Procs.reaches_end h⟩

theorem storageAfter_guarded {good : Procs.Config Nat (Shared Unsealed) (Call Sealed) →
      (Nat × CallEvent) ⊕ StorageEvent Sealed → Prop} [∀ c label, Decidable (good c label)]
    {labels : List ((Nat × CallEvent) ⊕ StorageEvent Sealed)}
    (h : (Lts.runGuarded (M.storage genesis).exec good (M.freshStorage genesis) labels).isSome) :
    ((M.storage genesis).lts.guard good).Reachable (M.storageAfter genesis labels) :=
  ⟨M.freshStorage genesis, ⟨rfl, rfl⟩, Procs.reaches_end_guarded h⟩

/-! ## What a step can do -/

/-- The cases of `readStep`. -/
inductive ReadStep (sh : Shared Unsealed) :
    Reading Sealed → Shared Unsealed → Reading Sealed → Prop where
  | height : ReadStep sh .start sh (.height sh.db.highestHeight)
  | genesis : ReadStep sh (.height 0) sh (.done (M.genesisState genesis))
  | cached {h : Nat} {blk : Block} (h0 : 0 < h) (hblk : sh.oldCache[h]? = some blk) :
      ReadStep sh (.height h) sh (.block h blk)
  | fetched {h : Nat} {blk : Block} (h0 : 0 < h) (hblk : sh.db.block? h = some blk) :
      ReadStep sh (.height h) { sh with fetched := (h, blk) :: sh.fetched } (.block h blk)
  | missing {h : Nat} (h0 : 0 < h) (hblk : sh.db.block? h = none) :
      ReadStep sh (.height h) { sh with crashed := true } (.height h)
  | rebuilt {h : Nat} {blk : Block} {s : Sealed}
      (hs : M.rebuildState blk (M.getStakeset genesis sh.db h) = .ok s) :
      ReadStep sh (.block h blk) sh (.done s)
  | mismatch {h : Nat} {blk : Block} :
      ReadStep sh (.block h blk) { sh with crashed := true } (.block h blk)

/-- The cases of `callStep` outside its reads. -/
inductive CallStep (i : Nat) (sh : Shared Unsealed) :
    CallEvent → Call Sealed → Shared Unsealed → Call Sealed → Prop where
  | invoke (blk : Block) (cproof : ConsensusProof) :
      CallStep i sh (.invoke blk cproof) .idle sh (.made blk cproof .waiting)
  | acquire {blk : Block} {cproof : ConsensusProof} (hlock : sh.lock = none) :
      CallStep i sh .acquire (.made blk cproof .waiting) { sh with lock := some i }
        (.made blk cproof (.checking .start))
  | readCheck {blk : Block} {cproof : ConsensusProof} {sh' : Shared Unsealed}
      {r r' : Reading Sealed} (cached : Bool) (hr : M.ReadStep genesis sh r sh' r') :
      CallStep i sh (.read cached) (.made blk cproof (.checking r)) sh'
        (.made blk cproof (.checking r'))
  | accept {blk : Block} {cproof : ConsensusProof} {s s' : Sealed}
      (hcheck : M.checkBlock s blk cproof = .ok s') :
      CallStep i sh .check (.made blk cproof (.checking (.done s))) sh (.made blk cproof .queued)
  | reject {blk : Block} {cproof : ConsensusProof} {s : Sealed} (e : ApplyError) :
      CallStep i sh .check (.made blk cproof (.checking (.done s))) { sh with lock := none }
        (.made blk cproof (.returned (.error e)))
  | panic {blk : Block} {cproof : ConsensusProof} {s : Sealed} :
      CallStep i sh .check (.made blk cproof (.checking (.done s))) { sh with crashed := true }
        (.made blk cproof (.checking (.done s)))
  | start {blk : Block} {cproof : ConsensusProof} :
      CallStep i sh .start (.made blk cproof .queued) sh (.made blk cproof .running)
  | commit {blk : Block} {cproof : ConsensusProof} {db : Tables}
      (hins : M.insertBlock sh.db blk cproof = some db) :
      CallStep i sh .commit (.made blk cproof .running)
        { sh with db := db, committer := sh.committer.insert blk.header.height i }
        (.made blk cproof (.rebasing .start))
  | orphanCommit {blk : Block} {cproof : ConsensusProof} {db : Tables}
      (hins : M.insertBlock sh.db blk cproof = some db) :
      CallStep i sh .commit (.made blk cproof .orphan)
        { sh with db := db, committer := sh.committer.insert blk.header.height i }
        (.made blk cproof .dropped)
  | failQueued {blk : Block} {cproof : ConsensusProof} :
      CallStep i sh .fail (.made blk cproof .queued) { sh with lock := none }
        (.made blk cproof (.returned (.error .database)))
  | failRunning {blk : Block} {cproof : ConsensusProof} :
      CallStep i sh .fail (.made blk cproof .running) { sh with lock := none }
        (.made blk cproof (.returned (.error .database)))
  | orphanFail {blk : Block} {cproof : ConsensusProof} :
      CallStep i sh .fail (.made blk cproof .orphan) sh (.made blk cproof .dropped)
  | readRebase {blk : Block} {cproof : ConsensusProof} {sh' : Shared Unsealed}
      {r r' : Reading Sealed} (cached : Bool) (hr : M.ReadStep genesis sh r sh' r') :
      CallStep i sh (.read cached) (.made blk cproof (.rebasing r)) sh'
        (.made blk cproof (.rebasing r'))
  | rebase {blk : Block} {cproof : ConsensusProof} {s : Sealed} :
      CallStep i sh .rebase (.made blk cproof (.rebasing (.done s)))
        { sh with mempool := Mempool.rebase M s, lock := none }
        (.made blk cproof (.returned (.ok ())))
  | dropWaiting {blk : Block} {cproof : ConsensusProof} :
      CallStep i sh .drop (.made blk cproof .waiting) sh (.made blk cproof .dropped)
  | dropRunning {blk : Block} {cproof : ConsensusProof} :
      CallStep i sh .drop (.made blk cproof .running) { sh with lock := none }
        (.made blk cproof .orphan)
  | dropChecking {blk : Block} {cproof : ConsensusProof} {r : Reading Sealed} :
      CallStep i sh .drop (.made blk cproof (.checking r)) { sh with lock := none }
        (.made blk cproof .dropped)
  | dropQueued {blk : Block} {cproof : ConsensusProof} :
      CallStep i sh .drop (.made blk cproof .queued) { sh with lock := none }
        (.made blk cproof .dropped)
  | dropRebasing {blk : Block} {cproof : ConsensusProof} {r : Reading Sealed} :
      CallStep i sh .drop (.made blk cproof (.rebasing r)) { sh with lock := none }
        (.made blk cproof .dropped)

/-- The cases of `storageStep`. -/
inductive StorageStep (sh : Shared Unsealed) : StorageEvent Sealed → Shared Unsealed → Prop where
  | fetch {h : Nat} {blk : Block} (hcrash : sh.crashed = false) (hblk : sh.db.block? h = some blk) :
      StorageStep sh (.fetch h) { sh with fetched := (h, blk) :: sh.fetched }
  | fill {h : Nat} {blk : Block} (hcrash : sh.crashed = false) (hmem : (h, blk) ∈ sh.fetched) :
      StorageStep sh (.fill h blk) { sh with oldCache := sh.oldCache.insert h blk }
  | evict (h : Nat) : StorageStep sh (.evict h) { sh with oldCache := sh.oldCache.erase h }
  | sendTx (tx : Transaction) (crashed : Bool) (hcrash : sh.crashed = false) :
      StorageStep sh (.sendTx tx)
        { sh with mempool := (Mempool.applyTransaction M sh.mempool tx).2, crashed := crashed }
  | rebaseMempool (s : Sealed) (hcrash : sh.crashed = false) :
      StorageStep sh (.rebaseMempool s) { sh with mempool := Mempool.rebase M s }
  | kill : StorageStep sh .kill { sh with crashed := true }
  | reopen (hcrash : sh.crashed = true) :
      StorageStep sh .reopen (M.openStorage genesis sh.db sh.committer)

variable {M genesis}
variable {sh sh' : Shared Unsealed}

theorem readStep_cases {cached : Bool} {r r' : Reading Sealed}
    (h : M.readStep genesis cached sh r = some (sh', r')) : M.ReadStep genesis sh r sh' r' := by
  cases r with
  | start =>
    cases h
    exact .height
  | height k =>
    unfold readStep at h
    dsimp only at h
    by_cases hk : 0 < k
    · rw [if_pos hk] at h
      cases cached with
      | true =>
        obtain ⟨blk, hblk, heq⟩ := Option.map_eq_some_iff.mp h
        cases heq
        exact .cached hk hblk
      | false =>
        cases hblk : sh.db.block? k with
        | none =>
          simp only [hblk, Bool.false_eq_true, if_false] at h
          cases h
          exact .missing hk hblk
        | some blk =>
          simp only [hblk, Bool.false_eq_true, if_false] at h
          cases h
          exact .fetched hk hblk
    · rw [if_neg hk] at h
      obtain rfl : k = 0 := by omega
      cases h
      exact .genesis
  | block k blk =>
    unfold readStep at h
    dsimp only at h
    cases hs : M.rebuildState blk (M.getStakeset genesis sh.db k) with
    | ok s =>
      simp only [hs] at h
      cases h
      exact .rebuilt hs
    | error site =>
      simp only [hs] at h
      cases h
      exact .mismatch
  | done s => cases h

theorem callStep_cases {i : Nat} {e : CallEvent} {call call' : Call Sealed}
    (h : M.callStep genesis i e sh call = some (sh', call')) :
    sh.crashed = false ∧ M.CallStep genesis i sh e call sh' call' := by
  unfold callStep at h
  split at h
  · cases h
  · next hcrash =>
    refine ⟨by simpa using hcrash, ?_⟩
    split at h
    · cases h
      exact .invoke _ _
    · split at h
      · next hlock =>
        cases h
        exact .acquire hlock
      · cases h
    · obtain ⟨⟨sh₁, r₁⟩, hr, heq⟩ := Option.map_eq_some_iff.mp h
      cases heq
      exact .readCheck _ (readStep_cases hr)
    · split at h
      · next hcheck =>
        cases h
        exact .accept hcheck
      · cases h
        exact .reject _
      · cases h
        exact .panic
    · cases h
      exact .start
    · obtain ⟨db, hins, heq⟩ := Option.map_eq_some_iff.mp h
      cases heq
      exact .commit hins
    · obtain ⟨db, hins, heq⟩ := Option.map_eq_some_iff.mp h
      cases heq
      exact .orphanCommit hins
    · cases h
      exact .failQueued
    · cases h
      exact .failRunning
    · cases h
      exact .orphanFail
    · obtain ⟨⟨sh₁, r₁⟩, hr, heq⟩ := Option.map_eq_some_iff.mp h
      cases heq
      exact .readRebase _ (readStep_cases hr)
    · cases h
      exact .rebase
    · cases h
      exact .dropWaiting
    · cases h
      exact .dropRunning
    · cases h
      exact .dropChecking
    · cases h
      exact .dropQueued
    · cases h
      exact .dropRebasing
    · cases h

theorem storageStep_cases {d : StorageEvent Sealed} (h : M.storageStep genesis d sh = some sh') :
    M.StorageStep genesis sh d sh' := by
  cases d with
  | fetch k =>
    simp only [storageStep] at h
    split at h
    · cases h
    · next hcrash =>
      obtain ⟨blk, hblk, rfl⟩ := Option.map_eq_some_iff.mp h
      exact .fetch (by simpa using hcrash) hblk
  | fill k blk =>
    simp only [storageStep] at h
    split at h
    · next hmem =>
      cases h
      exact .fill hmem.1 hmem.2
    · cases h
  | evict k =>
    cases h
    exact .evict k
  | sendTx tx =>
    simp only [storageStep] at h
    split at h
    · cases h
    · next hcrash =>
      have hcrash : sh.crashed = false := by simpa using hcrash
      have hstep : ∀ crashed, M.StorageStep genesis sh (.sendTx tx)
          { sh with mempool := (Mempool.applyTransaction M sh.mempool tx).2, crashed := crashed } :=
        fun crashed => .sendTx tx crashed hcrash
      split at h
      · next heq =>
        cases h
        rw [heq] at hstep
        exact hstep true
      · next heq =>
        cases h
        rw [heq] at hstep
        exact hstep sh.crashed
  | rebaseMempool s =>
    simp only [storageStep] at h
    split at h
    · cases h
    · next hcrash =>
      cases h
      exact .rebaseMempool s (by simpa using hcrash)
  | kill =>
    cases h
    exact .kill
  | reopen =>
    simp only [storageStep] at h
    split at h
    · next hcrash =>
      cases h
      exact .reopen hcrash
    · cases h

/-- Only the rebase of a call touches the mempool. -/
theorem CallStep.mempool_eq {i : Nat} {e : CallEvent} {call call' : Call Sealed}
    (h : M.CallStep genesis i sh e call sh' call') (he : e ≠ .rebase) :
    sh'.mempool = sh.mempool := by
  cases h with
  | readCheck _ hr => cases hr <;> rfl
  | readRebase _ hr => cases hr <;> rfl
  | rebase => exact absurd rfl he
  | _ => rfl

/-- A call keeps its block. -/
theorem CallStep.made {i : Nat} {e : CallEvent} {blk : Block} {cproof : ConsensusProof}
    {phase : Phase Sealed} {call' : Call Sealed}
    (h : M.CallStep genesis i sh e (.made blk cproof phase) sh' call') :
    ∃ phase', call' = .made blk cproof phase' := by
  cases h <;> exact ⟨_, rfl⟩

theorem ended_made (d : StorageEvent Sealed) (blk : Block) (cproof : ConsensusProof)
    (phase : Phase Sealed) : ∃ phase', ended d (.made blk cproof phase) = .made blk cproof phase' := by
  cases d with
  | reopen => cases phase <;> exact ⟨_, rfl⟩
  | _ => exact ⟨phase, rfl⟩

theorem exec_made {c c' : Procs.Config Nat (Shared Unsealed) (Call Sealed)}
    {label : (Nat × CallEvent) ⊕ StorageEvent Sealed}
    (hexec : (M.storage genesis).exec c label = some c') {i : Nat} {blk : Block}
    {cproof : ConsensusProof} {phase : Phase Sealed} (hi : c.procs i = .made blk cproof phase) :
    ∃ phase', c'.procs i = .made blk cproof phase' := by
  cases label with
  | inl call =>
    obtain ⟨j, e⟩ := call
    obtain ⟨s', l', hstep, rfl⟩ := Procs.exec_proc.mp hexec
    show ∃ phase', Function.update c.procs j l' i = .made blk cproof phase'
    by_cases hij : i = j
    · subst hij
      rw [Function.update_self]
      obtain ⟨-, hcases⟩ := callStep_cases hstep
      rw [hi] at hcases
      exact hcases.made
    · rw [Function.update_of_ne hij]
      exact ⟨phase, hi⟩
  | inr d =>
    obtain ⟨s', -, rfl⟩ := Procs.exec_env.mp hexec
    show ∃ phase', ended d (c.procs i) = .made blk cproof phase'
    rw [hi]
    exact ended_made d blk cproof phase

end Melstf

/-- A storage of the three-staker network that has committed its first block. -/
def Ledger.committed (blk : Block) (keys : List Ed25519PK) :
    Procs.Config Nat (Shared Ledger.Unsealed) (Call Ledger.Sealed) :=
  ledger.storageAfter Ledger.threeStakers (Melstf.soloCall 0 0 blk (Ledger.proofBy keys blk))

end Melnode
