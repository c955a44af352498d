import Melnode.Storage.Invariant

/-!
# The mempool and the chain

`apply_block` rebases the mempool on the state it committed before it gives up the lock. As long as
no other rebase puts it on an older state, no committed call is dropped before its rebase and no
closure of a dropped call commits, the mempool is on top of the highest state whenever nobody is
between a commit and the rebase after it.
-/

namespace Melnode

open Lib

variable {Sealed Unsealed : Type}

/-- The call is between its commit and its rebase. -/
def Call.isRebasing : Call Sealed → Bool
  | .made _ _ (.rebasing _) => true
  | _ => false

/-- The call's future is gone and its closure runs. -/
def Call.isOrphan : Call Sealed → Bool
  | .made _ _ .orphan => true
  | _ => false

/-- The call that holds the lock is between its commit and its rebase. -/
def holderRebasing (c : Procs.Config Nat (Shared Unsealed) (Call Sealed)) : Bool :=
  match c.shared.lock with
  | some i => (c.procs i).isRebasing
  | none => false

namespace Melstf

variable {M : Melstf Sealed Unsealed} {genesis : GenesisConfig}

/-- The provisional state is on top of the successor of the highest state. -/
def FollowsHighest (M : Melstf Sealed Unsealed) (genesis : GenesisConfig) (sh : Shared Unsealed) :
    Prop :=
  ∀ s, M.highestState genesis sh.db = .ok s → Mempool.Follows M sh.mempool (M.nextUnsealed s)

/-- The step does not leave the mempool behind: a call is not dropped before its rebase, the closure
of a dropped call does not commit, and a rebase from outside is on the highest state or followed by
that of a call. -/
def KeepsMempool (M : Melstf Sealed Unsealed) (genesis : GenesisConfig)
    (c : Procs.Config Nat (Shared Unsealed) (Call Sealed)) :
    (Nat × CallEvent) ⊕ StorageEvent Sealed → Prop
  | .inl (i, .drop) => (c.procs i).isRebasing = false
  | .inl (i, .commit) => (c.procs i).isOrphan = false
  | .inr (.rebaseMempool s) =>
    M.highestState genesis c.shared.db = .ok s ∨ holderRebasing c = true
  | .inr .reopen => False
  | _ => True

/-- The `highest_state` of a call that has committed is at the highest height. -/
def AtHighest (M : Melstf Sealed Unsealed) (genesis : GenesisConfig) (db : Tables) :
    Reading Sealed → Prop
  | .start => True
  | .height h => h = db.highestHeight
  | .block h _ => h = db.highestHeight
  | .done s => M.highestState genesis db = .ok s

/-- What a call knows of the lock, and of the mempool while it holds it. -/
def CallFollows (M : Melstf Sealed Unsealed) (genesis : GenesisConfig) (sh : Shared Unsealed)
    (i : Nat) : Call Sealed → Prop
  | .idle => sh.lock ≠ some i
  | .made _ _ phase =>
    match phase with
    | .checking _ => sh.lock = some i ∧ M.FollowsHighest genesis sh
    | .queued => sh.lock = some i ∧ M.FollowsHighest genesis sh
    | .running => sh.lock = some i ∧ M.FollowsHighest genesis sh
    | .rebasing r => sh.lock = some i ∧ M.AtHighest genesis sh.db r
    | .waiting => sh.lock ≠ some i
    | .returned _ => sh.lock ≠ some i
    | .dropped => sh.lock ≠ some i
    | .orphan => sh.lock ≠ some i

/-- What the others leave alone of call `i`: whether it holds the lock, and the rows and the mempool
while it does. -/
structure Spares (M : Melstf Sealed Unsealed) (genesis : GenesisConfig) (i : Nat)
    (sh sh' : Shared Unsealed) : Prop where
  lock : sh'.lock = some i ↔ sh.lock = some i
  db : sh.lock = some i → sh'.db = sh.db
  follows : sh.lock = some i → M.FollowsHighest genesis sh → M.FollowsHighest genesis sh'

section Steps

variable {sh sh' : Shared Unsealed}

theorem FollowsHighest.of_same (h : M.FollowsHighest genesis sh) (hdb : sh'.db = sh.db)
    (hmempool : sh'.mempool = sh.mempool) : M.FollowsHighest genesis sh' := by
  intro s hs
  rw [hmempool]
  exact h s (hdb ▸ hs)

theorem Spares.of_same {i : Nat} (hlock : sh'.lock = sh.lock) (hdb : sh'.db = sh.db)
    (hmempool : sh'.mempool = sh.mempool) : M.Spares genesis i sh sh' :=
  ⟨by rw [hlock], fun _ => hdb, fun _ h => h.of_same hdb hmempool⟩

/-- While another call has the lock or takes it or gives it up, `i` does not hold it. -/
theorem Spares.of_not_holder {i : Nat} (h : sh.lock ≠ some i) (h' : sh'.lock ≠ some i) :
    M.Spares genesis i sh sh' :=
  ⟨⟨fun hi => absurd hi h', fun hi => absurd hi h⟩, fun hi => absurd hi h, fun hi => absurd hi h⟩

theorem ne_some_of_holder {lock : Option Nat} {i j : Nat} (hj : lock = some j) (hij : i ≠ j) :
    lock ≠ some i := by
  rintro hi
  exact hij (Option.some.inj (hi.symm.trans hj))

/-- The holder gives up the lock. -/
theorem Spares.of_release {i j : Nat} (hij : i ≠ j) (hj : sh.lock = some j) (h : sh'.lock = none) :
    M.Spares genesis i sh sh' :=
  .of_not_holder (ne_some_of_holder hj hij) (by simp [h])

theorem CallFollows.spared {i : Nat} {call : Call Sealed} (h : M.CallFollows genesis sh i call)
    (hsp : M.Spares genesis i sh sh') : M.CallFollows genesis sh' i call := by
  have hfree : sh.lock ≠ some i → sh'.lock ≠ some i := fun hne hi => hne (hsp.lock.mp hi)
  have hheld : sh.lock = some i ∧ M.FollowsHighest genesis sh →
      sh'.lock = some i ∧ M.FollowsHighest genesis sh' :=
    fun ⟨hi, hf⟩ => ⟨hsp.lock.mpr hi, hsp.follows hi hf⟩
  cases call with
  | idle => exact hfree h
  | made blk cproof phase =>
    cases phase with
    | checking r => exact hheld h
    | queued => exact hheld h
    | running => exact hheld h
    | rebasing r => exact ⟨hsp.lock.mpr h.1, hsp.db h.1 ▸ h.2⟩
    | waiting => exact hfree h
    | returned res => exact hfree h
    | dropped => exact hfree h
    | orphan => exact hfree h

/-- Only the holder of the lock knows anything of the mempool, and nothing while it is rebasing. -/
theorem CallFollows.of_rebasing {i : Nat} {call : Call Sealed} (h : M.CallFollows genesis sh i call)
    (hrebasing : sh.lock = some i → call.isRebasing = true) (hlock : sh'.lock = sh.lock)
    (hdb : sh'.db = sh.db) : M.CallFollows genesis sh' i call := by
  cases call with
  | idle => exact fun hi => h (hlock.symm.trans hi)
  | made blk cproof phase =>
    cases phase with
    | checking r => cases hrebasing h.1
    | queued => cases hrebasing h.1
    | running => cases hrebasing h.1
    | rebasing r => exact ⟨hlock.trans h.1, hdb ▸ h.2⟩
    | waiting => exact fun hi => h (hlock.symm.trans hi)
    | returned res => exact fun hi => h (hlock.symm.trans hi)
    | dropped => exact fun hi => h (hlock.symm.trans hi)
    | orphan => exact fun hi => h (hlock.symm.trans hi)

/-- A read of `highest_state` touches neither the lock nor the mempool, and at the highest height it
stays there. -/
theorem ReadStep.follows {r r' : Reading Sealed} (hr : M.ReadingOk genesis sh.db r)
    (hstep : M.ReadStep genesis sh r sh' r') :
    sh'.lock = sh.lock ∧ sh'.db = sh.db ∧ sh'.mempool = sh.mempool ∧
      (M.AtHighest genesis sh.db r → M.AtHighest genesis sh.db r') := by
  cases hstep with
  | height => exact ⟨rfl, rfl, rfl, fun _ => rfl⟩
  | genesis =>
    refine ⟨rfl, rfl, rfl, fun h => ?_⟩
    have h0 : 0 = sh.db.highestHeight := h
    show M.stateAt genesis sh.db sh.db.highestHeight = _
    rw [← h0]
    exact stateAt_zero _
  | cached => exact ⟨rfl, rfl, rfl, id⟩
  | fetched => exact ⟨rfl, rfl, rfl, id⟩
  | missing => exact ⟨rfl, rfl, rfl, id⟩
  | @rebuilt h blk s hs =>
    refine ⟨rfl, rfl, rfl, fun hh => ?_⟩
    obtain ⟨h0, -, hblk⟩ := hr
    have hhighest : h = sh.db.highestHeight := hh
    subst hhighest
    show M.stateAt genesis sh.db sh.db.highestHeight = _
    unfold stateAt getState
    rw [if_pos h0, hblk]
    simp only [hs, Except.map]
  | mismatch => exact ⟨rfl, rfl, rfl, id⟩

/-- **One step of a call** keeps the mempool on top of the chain, except between its commit and its
rebase, and spares the holder of the lock. -/
theorem CallStep.follows {i : Nat} {e : CallEvent} {call call' : Call Sealed}
    (hfree : sh.lock = none → M.FollowsHighest genesis sh) (hok : M.CallOk genesis sh i call)
    (hcall : M.CallFollows genesis sh i call) (hdrop : e = .drop → call.isRebasing = false)
    (hcommit : e = .commit → call.isOrphan = false)
    (hstep : M.CallStep genesis i sh e call sh' call') :
    (sh'.lock = none → M.FollowsHighest genesis sh') ∧ M.CallFollows genesis sh' i call' ∧
      ∀ j, j ≠ i → M.Spares genesis j sh sh' := by
  have hkeep : ∀ j, j ≠ i → M.Spares genesis j sh sh := fun j _ => Spares.of_same rfl rfl rfl
  cases hstep with
  | invoke blk cproof => exact ⟨hfree, hcall, hkeep⟩
  | acquire hlock =>
    refine ⟨fun h => ?_, ⟨rfl, (hfree hlock).of_same rfl rfl⟩, fun j hj => ?_⟩
    · cases h
    · exact .of_not_holder (by simp [hlock]) (ne_some_of_holder rfl hj)
  | readCheck _ hr =>
    obtain ⟨hlock, hfollows⟩ := hcall
    obtain ⟨hlock', hdb, hmempool, -⟩ := hr.follows hok
    have hfollows' := hfollows.of_same hdb hmempool
    exact ⟨fun _ => hfollows', ⟨hlock'.trans hlock, hfollows'⟩,
      fun j _ => Spares.of_same hlock' hdb hmempool⟩
  | accept => exact ⟨hfree, hcall, hkeep⟩
  | reject =>
    exact ⟨fun _ => hcall.2.of_same rfl rfl, nofun, fun j hj => .of_release hj hcall.1 rfl⟩
  | panic =>
    exact ⟨fun _ => hcall.2.of_same rfl rfl, ⟨hcall.1, hcall.2.of_same rfl rfl⟩,
      fun j _ => Spares.of_same rfl rfl rfl⟩
  | start => exact ⟨hfree, hcall, hkeep⟩
  | commit =>
    refine ⟨fun h => ?_, ⟨hcall.1, trivial⟩, fun j hj => ?_⟩
    · have hlock : sh.lock = none := h
      rw [hcall.1] at hlock
      cases hlock
    · exact .of_not_holder (ne_some_of_holder hcall.1 hj) (ne_some_of_holder hcall.1 hj)
  | orphanCommit => cases hcommit rfl
  | failQueued =>
    exact ⟨fun _ => hcall.2.of_same rfl rfl, nofun, fun j hj => .of_release hj hcall.1 rfl⟩
  | failRunning =>
    exact ⟨fun _ => hcall.2.of_same rfl rfl, nofun, fun j hj => .of_release hj hcall.1 rfl⟩
  | orphanFail => exact ⟨hfree, hcall, hkeep⟩
  | readRebase _ hr =>
    obtain ⟨hlock, hat⟩ := hcall
    obtain ⟨hlock', hdb, hmempool, hread⟩ := hr.follows hok.1
    refine ⟨fun h => ?_, ⟨hlock'.trans hlock, hdb ▸ hread hat⟩,
      fun j _ => Spares.of_same hlock' hdb hmempool⟩
    rw [hlock', hlock] at h
    cases h
  | @rebase _ _ s =>
    refine ⟨fun _ s' hs' => ?_, nofun, fun j hj => .of_release hj hcall.1 rfl⟩
    have hs : M.highestState genesis sh.db = .ok s := hcall.2
    have heq : s = s' := Except.ok.inj (hs.symm.trans hs')
    subst heq
    exact Mempool.follows_new _
  | dropWaiting => exact ⟨hfree, hcall, hkeep⟩
  | dropRunning =>
    exact ⟨fun _ => hcall.2.of_same rfl rfl, nofun, fun j hj => .of_release hj hcall.1 rfl⟩
  | dropChecking =>
    exact ⟨fun _ => hcall.2.of_same rfl rfl, nofun, fun j hj => .of_release hj hcall.1 rfl⟩
  | dropQueued =>
    exact ⟨fun _ => hcall.2.of_same rfl rfl, nofun, fun j hj => .of_release hj hcall.1 rfl⟩
  | dropRebasing => cases hdrop rfl

/-- The environment leaves the lock and the rows alone; what it does to the mempool. -/
theorem storageStep_follows {c : Procs.Config Nat (Shared Unsealed) (Call Sealed)}
    {d : StorageEvent Sealed} (hgood : M.KeepsMempool genesis c (.inr d))
    (h : M.storageStep genesis d c.shared = some sh') :
    sh'.lock = c.shared.lock ∧ sh'.db = c.shared.db ∧
      (holderRebasing c = true ∨ (M.FollowsHighest genesis c.shared → M.FollowsHighest genesis sh')) := by
  cases storageStep_cases h with
  | sendTx tx =>
    exact ⟨rfl, rfl, Or.inr fun hf s hs => Mempool.follows_applyTransaction (hf s hs) tx⟩
  | rebaseMempool s =>
    refine ⟨rfl, rfl, ?_⟩
    rcases hgood with hs | hrebasing
    · refine Or.inr fun _ s' hs' => ?_
      have heq : s = s' := Except.ok.inj (hs.symm.trans hs')
      subst heq
      exact Mempool.follows_new _
    · exact Or.inl hrebasing
  | reopen => exact absurd hgood id
  | _ => exact ⟨rfl, rfl, Or.inr fun hf => hf.of_same rfl rfl⟩

end Steps

theorem moved_of_ne_reopen {d : StorageEvent Sealed} (hd : d ≠ .reopen) (call : Call Sealed) :
    ended d call = call := by
  cases d with
  | reopen => exact absurd rfl hd
  | _ => rfl

theorem follows_outline (hB : M.BuildsStates) {opened : Shared Unsealed → Prop}
    (hopened : ∀ sh, opened sh → M.SharedOk genesis sh ∧ sh.lock = none ∧
      M.FollowsHighest genesis sh) :
    (M.storageFrom genesis opened).Outline (M.KeepsMempool genesis)
      (fun sh => M.SharedOk genesis sh ∧ (sh.lock = none → M.FollowsHighest genesis sh))
      (fun sh i call => M.CallOk genesis sh i call ∧ M.CallFollows genesis sh i call)
      fun j sh sh' => Grows sh sh' ∧ ∀ i, i ≠ j → M.Spares genesis i sh sh' where
  init hinit := ⟨(hopened _ hinit).1, fun _ => (hopened _ hinit).2.2⟩
  start {sh i} hinit := by
    refine ⟨trivial, fun hi => ?_⟩
    rw [(hopened _ hinit).2.1] at hi
    cases hi
  step {c i e s' l'} _ hgood hinv hlocal hstep := by
    obtain ⟨hok, hfree⟩ := hinv
    obtain ⟨hcall, hfollows⟩ := hlocal
    obtain ⟨-, hcases⟩ := callStep_cases hstep
    have hdrop : e = .drop → (c.procs i).isRebasing = false := by
      rintro rfl
      exact hgood
    have hcommit : e = .commit → (c.procs i).isOrphan = false := by
      rintro rfl
      exact hgood
    obtain ⟨hok', hcall', hG⟩ := hcases.ok hB hok hcall
    obtain ⟨hfree', hfollows', hspares⟩ := hcases.follows hfree hcall hfollows hdrop hcommit
    exact ⟨⟨hok', hfree'⟩, ⟨hcall', hfollows'⟩, hG, hspares⟩
  stable hij _ hG hlocal := ⟨hlocal.1.grows hG.1, hlocal.2.spared (hG.2 _ hij)⟩
  env {c d s'} _ hgood hinv hlocal hstep := by
    obtain ⟨hok, hfree⟩ := hinv
    obtain ⟨hok', hdb, hcommitter⟩ := storageStep_same hB hok hstep
    obtain ⟨hlock, -, hmempool⟩ := storageStep_follows hgood hstep
    have hreopen : d ≠ .reopen := by
      rintro rfl
      exact hgood
    refine ⟨⟨hok', fun hnone => ?_⟩, fun i => ?_⟩
    · rw [hlock] at hnone
      rcases hmempool with hrebasing | hkeep
      · unfold holderRebasing at hrebasing
        rw [hnone] at hrebasing
        cases hrebasing
      · exact hkeep (hfree hnone)
    · show M.CallOk genesis s' i (ended d (c.procs i)) ∧
        M.CallFollows genesis s' i (ended d (c.procs i))
      rw [moved_of_ne_reopen hreopen]
      obtain ⟨hcall, hfollows⟩ := hlocal i
      refine ⟨hcall.grows (hok.grows_of_same hB hdb hcommitter), ?_⟩
      rcases hmempool with hrebasing | hkeep
      · refine hfollows.of_rebasing (fun hi => ?_) hlock hdb
        unfold holderRebasing at hrebasing
        rw [hi] at hrebasing
        exact hrebasing
      · exact hfollows.spared ⟨by rw [hlock], fun _ => hdb, fun _ => hkeep⟩

/-- **The mempool follows the chain** over the runs whose steps keep it: it is on top of the highest
state whenever no call is between its commit and its rebase. -/
theorem follows_reachable (hB : M.BuildsStates) {opened : Shared Unsealed → Prop}
    (hopened : ∀ sh, opened sh → M.SharedOk genesis sh ∧ sh.lock = none ∧
      M.FollowsHighest genesis sh)
    {c : Procs.Config Nat (Shared Unsealed) (Call Sealed)}
    (hc : ((M.storageFrom genesis opened).lts.guard (M.KeepsMempool genesis)).Reachable c)
    (hquiet : ∀ i, (c.procs i).isRebasing = false) : M.FollowsHighest genesis c.shared := by
  obtain ⟨⟨-, hfree⟩, hcalls⟩ := (follows_outline hB hopened).reachable hc
  cases hlock : c.shared.lock with
  | none => exact hfree hlock
  | some i =>
    have hcall := (hcalls i).2
    have hi := hquiet i
    cases heq : c.procs i with
    | idle =>
      rw [heq] at hcall
      exact absurd hlock hcall
    | made blk cproof phase =>
      rw [heq] at hcall hi
      cases phase with
      | checking r => exact hcall.2
      | queued => exact hcall.2
      | running => exact hcall.2
      | rebasing r => cases hi
      | waiting => exact absurd hlock hcall
      | returned res => exact absurd hlock hcall
      | dropped => exact absurd hlock hcall
      | orphan => exact absurd hlock hcall

end Melstf

end Melnode
