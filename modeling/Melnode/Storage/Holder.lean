import Melnode.Storage.Follow

/-!
# The holder of the lock

The lock of a storage is held by the call that is between taking it and returning. A call that has
committed has put its block on top of the chain, and nobody puts another one there before it has
rebased the mempool: the others wait for the lock, and what the closures of dropped calls have left
to commit belongs at or below that block. So `apply_block` rebases on the state of its own block
(`applied_of_returned`).
-/

namespace Melnode

open Lib

variable {Sealed Unsealed : Type}

/-- The call holds the lock. -/
def Call.holds : Call Sealed → Bool
  | .made _ _ (.checking _) => true
  | .made _ _ .queued => true
  | .made _ _ .running => true
  | .made _ _ (.rebasing _) => true
  | _ => false

namespace Melstf

variable {M : Melstf Sealed Unsealed} {genesis : GenesisConfig}

/-! ## The lock -/

section Lock

variable {sh sh' : Shared Unsealed} {i : Nat} {e : CallEvent} {call call' : Call Sealed}

/-- **One step of a call** and the lock: it takes the lock when it is free and gives it up when it
holds it. -/
theorem CallStep.lock (hself : sh.lock = some i ↔ call.holds = true)
    (h : M.CallStep genesis i sh e call sh' call') :
    (sh'.lock = some i ↔ call'.holds = true) ∧
      ∀ j, j ≠ i → (sh'.lock = some j ↔ sh.lock = some j) := by
  have hread : ∀ {r r' : Reading Sealed}, M.ReadStep genesis sh r sh' r' → sh'.lock = sh.lock := by
    intro r r' hr
    cases hr <;> rfl
  have hrelease : sh.lock = some i → ∀ j, j ≠ i → ((none : Option Nat) = some j ↔ sh.lock = some j) := by
    intro hi j hj
    rw [hi]
    exact ⟨nofun, fun heq => absurd (Option.some.inj heq).symm hj⟩
  cases h with
  | acquire hlock =>
    refine ⟨⟨fun _ => rfl, fun _ => rfl⟩, fun j hj => ?_⟩
    rw [hlock]
    exact ⟨fun heq => absurd (Option.some.inj heq).symm hj, nofun⟩
  | readCheck _ hr => rw [hread hr]; exact ⟨hself, fun _ _ => Iff.rfl⟩
  | readRebase _ hr => rw [hread hr]; exact ⟨hself, fun _ _ => Iff.rfl⟩
  | reject => exact ⟨⟨nofun, nofun⟩, hrelease (hself.mpr rfl)⟩
  | failQueued => exact ⟨⟨nofun, nofun⟩, hrelease (hself.mpr rfl)⟩
  | failRunning => exact ⟨⟨nofun, nofun⟩, hrelease (hself.mpr rfl)⟩
  | rebase => exact ⟨⟨nofun, nofun⟩, hrelease (hself.mpr rfl)⟩
  | dropRunning => exact ⟨⟨nofun, nofun⟩, hrelease (hself.mpr rfl)⟩
  | dropChecking => exact ⟨⟨nofun, nofun⟩, hrelease (hself.mpr rfl)⟩
  | dropQueued => exact ⟨⟨nofun, nofun⟩, hrelease (hself.mpr rfl)⟩
  | dropRebasing => exact ⟨⟨nofun, nofun⟩, hrelease (hself.mpr rfl)⟩
  | _ => exact ⟨hself, fun _ _ => Iff.rfl⟩

theorem lock_outline :
    (M.storage genesis).Outline (fun _ _ => True) (fun _ => True)
      (fun sh i call => sh.lock = some i ↔ call.holds = true)
      fun j sh sh' => ∀ i, i ≠ j → (sh'.lock = some i ↔ sh.lock = some i) where
  init _ := trivial
  start {sh i} hinit := by
    have hsh : sh = M.openStorage genesis Tables.fresh ∅ := hinit
    subst hsh
    exact ⟨nofun, nofun⟩
  step {c i e s' l'} _ _ _ hself hstep := by
    obtain ⟨hself', hothers⟩ := (callStep_cases hstep).2.lock hself
    exact ⟨trivial, hself', hothers⟩
  stable hij _ hG hself := (hG _ hij).trans hself
  env {c d s'} _ _ _ hlocal hstep := by
    refine ⟨trivial, fun i => ?_⟩
    have hstep' : M.storageStep genesis d c.shared = some s' := hstep
    show s'.lock = some i ↔ (ended d (c.procs i)).holds = true
    cases storageStep_cases hstep' with
    | reopen =>
      cases c.procs i with
      | idle => exact ⟨nofun, nofun⟩
      | made blk cproof phase => cases phase <;> exact ⟨nofun, nofun⟩
    | _ => exact hlocal i

/-- **The lock** is held by the call that is between taking it and returning. -/
theorem lock_iff {c : Procs.Config Nat (Shared Unsealed) (Call Sealed)}
    (hc : (M.storage genesis).lts.Reachable c) (i : Nat) :
    c.shared.lock = some i ↔ (c.procs i).holds = true :=
  (lock_outline.reachable hc.guard_true).2 i

theorem eq_of_holds {c : Procs.Config Nat (Shared Unsealed) (Call Sealed)}
    (hc : (M.storage genesis).lts.Reachable c) {j : Nat} (hi : (c.procs i).holds = true)
    (hj : (c.procs j).holds = true) : i = j :=
  Option.some.inj (((lock_iff hc i).mpr hi).symm.trans ((lock_iff hc j).mpr hj))

end Lock

/-! ## Between the commit and the rebase -/

section Rebasing

variable {c c' : Procs.Config Nat (Shared Unsealed) (Call Sealed)} {i : Nat} {blk : Block}
  {cproof : ConsensusProof}

/-- A call that has committed is reading the state of its own block, and the closures of dropped
calls have nothing to put on top of it. -/
def RebasingOk (M : Melstf Sealed Unsealed) (genesis : GenesisConfig)
    (c : Procs.Config Nat (Shared Unsealed) (Call Sealed)) : Prop :=
  ∀ i blk cproof r, c.procs i = .made blk cproof (.rebasing r) →
    blk.header.height = c.shared.db.highestHeight ∧ M.AtHighest genesis c.shared.db r ∧
      ∀ j blk' cproof', c.procs j = .made blk' cproof' .orphan →
        blk'.header.height ≤ c.shared.db.highestHeight

/-- What was accepted goes at most on top of the chain. -/
theorem Accepted.height_le (hB : M.BuildsStates) {db : Tables} (hchain : M.Chain genesis db)
    (h : M.Accepted genesis db blk cproof) :
    1 ≤ blk.header.height ∧ blk.header.height ≤ db.highestHeight + 1 := by
  obtain ⟨k, s, s', hk, hs, hcheck⟩ := h
  have hheight := (checkBlock_ok_iff.mp hcheck).1
  rw [(hchain.wellFormed hB).stateAt_height hB hs] at hheight
  omega

/-- A commit puts the block on top of the chain. -/
theorem Accepted.commit_height (hB : M.BuildsStates) {db db' : Tables} (hchain : M.Chain genesis db)
    (h : M.Accepted genesis db blk cproof) (hins : M.insertBlock db blk cproof = some db') :
    blk.header.height = db.highestHeight + 1 ∧ db'.highestHeight = db.highestHeight + 1 := by
  have hwf := hchain.wellFormed hB
  obtain ⟨k, s, s', hk, hs, hcheck⟩ := h
  have hinserted := insertBlock_inserted hins
  have hheight := (hwf.accepted_height hB hk hs hcheck hinserted.free).2
  exact ⟨hheight, hwf.highestHeight_inserted hinserted hheight⟩

/-- A step of a call writes its block when it commits, and nothing otherwise. -/
theorem CallStep.written {e : CallEvent} {call call' : Call Sealed} {sh sh' : Shared Unsealed}
    (h : M.CallStep genesis i sh e call sh' call') :
    (sh'.db = sh.db ∧ sh'.committer = sh.committer) ∨
      ∃ blk cproof, (call = .made blk cproof .running ∨ call = .made blk cproof .orphan) ∧
        M.insertBlock sh.db blk cproof = some sh'.db ∧
        sh'.committer = sh.committer.insert blk.header.height i := by
  cases h with
  | readCheck _ hr => cases hr <;> exact .inl ⟨rfl, rfl⟩
  | readRebase _ hr => cases hr <;> exact .inl ⟨rfl, rfl⟩
  | commit hins => exact .inr ⟨_, _, .inl rfl, hins, rfl⟩
  | orphanCommit hins => exact .inr ⟨_, _, .inr rfl, hins, rfl⟩
  | _ => exact .inl ⟨rfl, rfl⟩

/-- Nobody else commits while a call is between its commit and its rebase. -/
theorem RebasingOk.db_eq (hB : M.BuildsStates) (hc : (M.storage genesis).lts.Reachable c)
    (hr : M.RebasingOk genesis c) {r : Reading Sealed}
    (hi : c.procs i = .made blk cproof (.rebasing r)) {j : Nat} (hij : j ≠ i) {e : CallEvent}
    {call' : Call Sealed} {sh' : Shared Unsealed}
    (h : M.CallStep genesis j c.shared e (c.procs j) sh' call') : sh'.db = c.shared.db := by
  rcases h.written with ⟨hdb, -⟩ | ⟨blk', cproof', hj, hins, -⟩
  · exact hdb
  · have hok := storage_reachable hB hc
    have hwf := hok.1.chain.wellFormed hB
    rcases hj with hj | hj
    · exact absurd (eq_of_holds hc (hj ▸ rfl) (hi ▸ rfl)) hij
    · have haccepted : M.Accepted genesis c.shared.db blk' cproof' := by
        have hcall := hok.2 j
        rw [hj] at hcall
        exact hcall
      have hle := (hr i blk cproof r hi).2.2 j blk' cproof' hj
      have htop := (haccepted.commit_height hB hok.1.chain hins).1
      omega

/-- Only a running closure is left behind by a drop. -/
theorem CallStep.orphan {e : CallEvent} {call call' : Call Sealed} {sh sh' : Shared Unsealed}
    (h : M.CallStep genesis i sh e call sh' call') (horphan : call' = .made blk cproof .orphan) :
    call = .made blk cproof .running := by
  cases h <;> cases horphan
  rfl

/-- The call itself commits, or reads on. -/
theorem rebasing_self (hB : M.BuildsStates) (hc : (M.storage genesis).lts.Reachable c)
    (hr : M.RebasingOk genesis c) {e : CallEvent} {r : Reading Sealed} {sh' : Shared Unsealed}
    (h : M.CallStep genesis i c.shared e (c.procs i) sh' (.made blk cproof (.rebasing r))) :
    blk.header.height = sh'.db.highestHeight ∧ M.AtHighest genesis sh'.db r ∧
      ∀ j blk' cproof', c.procs j = .made blk' cproof' .orphan →
        blk'.header.height ≤ sh'.db.highestHeight := by
  obtain ⟨hok, hcalls⟩ := storage_reachable hB hc
  have hcall := hcalls i
  generalize hprev : c.procs i = call at h hcall
  cases h with
  | commit hins =>
    obtain ⟨hheight, hhighest⟩ := Accepted.commit_height hB hok.chain hcall hins
    refine ⟨hheight.trans hhighest.symm, trivial, fun j blk' cproof' hj => ?_⟩
    have haccepted := hcalls j
    rw [hj] at haccepted
    exact hhighest ▸ (Accepted.height_le hB hok.chain haccepted).2
  | readRebase _ hread =>
    obtain ⟨hheight, hat, hbelow⟩ := hr i blk cproof _ hprev
    obtain ⟨-, hdb, -, hnext⟩ := hread.follows hcall.1
    refine ⟨hdb ▸ hheight, hdb ▸ hnext hat, fun j blk' cproof' hj => ?_⟩
    exact hdb ▸ hbelow j blk' cproof' hj

/-- While call `i` holds the lock, no other call with a running closure is there to be dropped. -/
theorem orphan_before (hc : (M.storage genesis).lts.Reachable c) (hi : (c.procs i).holds = true)
    {k : Nat} (hki : k ≠ i) {e : CallEvent} {call' : Call Sealed} {sh' : Shared Unsealed}
    (h : M.CallStep genesis k c.shared e (c.procs k) sh' call') {j : Nat} {blk' : Block}
    {cproof' : ConsensusProof}
    (hj : Function.update c.procs k call' j = .made blk' cproof' .orphan) :
    c.procs j = .made blk' cproof' .orphan := by
  by_cases hjk : j = k
  · subst hjk
    rw [Function.update_self] at hj
    have hrunning := h.orphan hj
    exact absurd (eq_of_holds hc (hrunning ▸ rfl) hi) hki
  · rwa [Function.update_of_ne hjk] at hj

theorem rebasing_step (hB : M.BuildsStates) (hc : (M.storage genesis).lts.Reachable c)
    (hr : M.RebasingOk genesis c) {e : CallEvent} {call' : Call Sealed} {sh' : Shared Unsealed}
    {k : Nat} (h : M.CallStep genesis k c.shared e (c.procs k) sh' call') :
    M.RebasingOk genesis ⟨sh', Function.update c.procs k call'⟩ := by
  intro i blk cproof r hafter
  have hi : Function.update c.procs k call' i = .made blk cproof (.rebasing r) := hafter
  clear hafter
  by_cases hik : i = k
  · subst hik
    rw [Function.update_self] at hi
    subst hi
    obtain ⟨hheight, hat, hbelow⟩ := rebasing_self hB hc hr h
    refine ⟨hheight, hat, fun j blk' cproof' hafter => ?_⟩
    have hj : Function.update c.procs i (.made blk cproof (.rebasing r)) j =
        .made blk' cproof' .orphan := hafter
    by_cases hji : j = i
    · subst hji
      rw [Function.update_self] at hj
      cases hj
    · rw [Function.update_of_ne hji] at hj
      exact hbelow j blk' cproof' hj
  · rw [Function.update_of_ne hik] at hi
    have hdb : sh'.db = c.shared.db := hr.db_eq hB hc hi (Ne.symm hik) h
    obtain ⟨hheight, hat, hbelow⟩ := hr i blk cproof r hi
    refine ⟨hdb ▸ hheight, hdb ▸ hat, fun j blk' cproof' hafter => ?_⟩
    exact hdb ▸ hbelow j blk' cproof' (orphan_before hc (hi ▸ rfl) (Ne.symm hik) h hafter)

/-- **After a commit** nobody puts a block on top before the rebase. -/
theorem rebasing_reachable (hB : M.BuildsStates) (hc : (M.storage genesis).lts.Reachable c) :
    M.RebasingOk genesis c := by
  refine hc.invariant_of_reachable (I := fun c => M.RebasingOk genesis c) ?_ ?_
  · rintro c ⟨-, hstart⟩ i blk cproof r hi
    rw [hstart] at hi
    cases hi
  · rintro c (⟨k, e⟩ | d) c' hreach hr hexec
    · obtain ⟨sh', call', hstep, rfl⟩ := Procs.exec_proc.mp hexec
      exact rebasing_step hB hreach hr (callStep_cases hstep).2
    · obtain ⟨sh', hstep, rfl⟩ := Procs.exec_env.mp hexec
      have hdb : sh'.db = c.shared.db :=
        (storageStep_same hB (storage_reachable hB hreach).1 hstep).2.1
      by_cases hd : d = .reopen
      · subst hd
        intro i blk cproof r hafter
        have hi : ended .reopen (c.procs i) = .made blk cproof (.rebasing r) := hafter
        revert hi
        cases c.procs i with
        | idle => exact nofun
        | made blk' cproof' phase => cases phase <;> exact nofun
      · have hprocs : (fun i => ended d (c.procs i)) = c.procs :=
          funext fun i => moved_of_ne_reopen hd (c.procs i)
        show M.RebasingOk genesis ⟨sh', fun i => ended d (c.procs i)⟩
        rw [hprocs]
        unfold RebasingOk
        dsimp only
        rw [hdb]
        exact hr

end Rebasing

/-! ## What a returned call has done -/

/-- The tables hold the block, its proof and the stakes it brings. -/
structure Holds (M : Melstf Sealed Unsealed) (db : Tables) (blk : Block) (cproof : ConsensusProof) :
    Prop where
  history : db.history[blk.header.height]? = some ⟨blk.header, blk⟩
  proof : db.consensusProofs[blk.header.height]? = some cproof
  stakes : ∀ t row, (t, row) ∈ M.blockStakes blk → db.stakes[t]? = some row

theorem Holds.of_insert {db db' : Tables} {blk : Block} {cproof : ConsensusProof}
    (h : M.insertBlock db blk cproof = some db') : M.Holds db' blk cproof := by
  have hins := insertBlock_inserted h
  refine ⟨?_, ?_, fun t row hmem => (hins.stakes t row).mpr (.inr hmem)⟩
  · rw [hins.history, if_pos rfl]
  · rw [hins.proofs, if_pos rfl]

theorem Holds.keeps {db db' : Tables} {blk : Block} {cproof : ConsensusProof}
    (h : M.Holds db blk cproof) (hkeeps : db.Keeps db') : M.Holds db' blk cproof :=
  ⟨hkeeps.history h.history, hkeeps.proofs h.proof,
    fun t row hmem => hkeeps.stakes (h.stakes t row hmem)⟩

/-- Call `i` commits, which puts its block on top of the chain, and later rebases the mempool on the
state of that block, which is still on top. -/
structure Applies (M : Melstf Sealed Unsealed) (genesis : GenesisConfig) (i : Nat) (blk : Block)
    (cproof : ConsensusProof)
    (before committed rebasing after : Procs.Config Nat (Shared Unsealed) (Call Sealed)) : Prop where
  commit : (M.storage genesis).exec before (.inl (i, .commit)) = some committed
  inserted : M.insertBlock before.shared.db blk cproof = some committed.shared.db
  height : blk.header.height = before.shared.db.highestHeight + 1
  highest : committed.shared.db.highestHeight = before.shared.db.highestHeight + 1
  reads : (M.storage genesis).lts.Reaches committed rebasing
  top : rebasing.shared.db = committed.shared.db
  rebase : (M.storage genesis).exec rebasing (.inl (i, .rebase)) = some after
  mempool : ∃ s, M.highestState genesis committed.shared.db = .ok s ∧
    after.shared.mempool = Mempool.rebase M s

section Run

variable {c c' c'' : Procs.Config Nat (Shared Unsealed) (Call Sealed)} {i : Nat} {blk : Block}
  {cproof : ConsensusProof}

/-- Call `i` has committed its block in the run from `c` to `c'`. -/
def HasCommitted (M : Melstf Sealed Unsealed) (genesis : GenesisConfig) (i : Nat) (blk : Block)
    (cproof : ConsensusProof) (c c' : Procs.Config Nat (Shared Unsealed) (Call Sealed)) : Prop :=
  ∃ before committed, (M.storage genesis).lts.Reaches c before ∧
    (M.storage genesis).exec before (.inl (i, .commit)) = some committed ∧
    M.insertBlock before.shared.db blk cproof = some committed.shared.db ∧
    blk.header.height = before.shared.db.highestHeight + 1 ∧
    committed.shared.db.highestHeight = before.shared.db.highestHeight + 1 ∧
    (M.storage genesis).lts.Reaches committed c'

/-- What the run from `c` to `c'` shows of call `i`, by where the call is. -/
def Traced (M : Melstf Sealed Unsealed) (genesis : GenesisConfig) (i : Nat)
    (c c' : Procs.Config Nat (Shared Unsealed) (Call Sealed)) : Call Sealed → Prop
  | .made blk cproof (.rebasing _) => M.HasCommitted genesis i blk cproof c c'
  | .made blk cproof (.returned (.ok ())) =>
    ∃ before committed rebasing after, (M.storage genesis).lts.Reaches c before ∧
      M.Applies genesis i blk cproof before committed rebasing after ∧
      (M.storage genesis).lts.Reaches after c'
  | _ => True

theorem Traced.trans {call : Call Sealed} (h : M.Traced genesis i c c' call)
    (hrun : (M.storage genesis).lts.Reaches c' c'') : M.Traced genesis i c c'' call := by
  cases call with
  | idle => trivial
  | made blk cproof phase =>
    cases phase with
    | rebasing r =>
      obtain ⟨before, committed, hbefore, hcommit, hins, hheight, hhighest, hafter⟩ := h
      exact ⟨before, committed, hbefore, hcommit, hins, hheight, hhighest, hafter.trans hrun⟩
    | returned res =>
      cases res with
      | error e => trivial
      | ok =>
        obtain ⟨before, committed, rebasing, after, hbefore, happlies, hafter⟩ := h
        exact ⟨before, committed, rebasing, after, hbefore, happlies, hafter.trans hrun⟩
    | _ => trivial

theorem Traced.ended {call : Call Sealed} (d : StorageEvent Sealed)
    (h : M.Traced genesis i c c' call) : M.Traced genesis i c c' (ended d call) := by
  cases call with
  | idle => cases d <;> trivial
  | made blk cproof phase =>
    cases d with
    | reopen =>
      cases phase with
      | returned res => exact h
      | _ => trivial
    | _ => exact h

/-- **One step of the call itself.** -/
theorem Traced.step (hB : M.BuildsStates) (hc : (M.storage genesis).lts.Reachable c)
    (hrun : (M.storage genesis).lts.Reaches c c') (h : M.Traced genesis i c c' (c'.procs i))
    {e : CallEvent} (hexec : (M.storage genesis).exec c' (.inl (i, e)) = some c'') :
    M.Traced genesis i c c'' (c''.procs i) := by
  have hreach := hc.trans hrun
  have hstep : (M.storage genesis).lts.Reaches c' c'' := (Lts.Reaches.refl c').tail hexec
  obtain ⟨hok, hcalls⟩ := storage_reachable hB hreach
  have hcall := hcalls i
  have hrebasing := rebasing_reachable hB hreach
  obtain ⟨sh', call', hcallStep, rfl⟩ := Procs.exec_proc.mp hexec
  show M.Traced genesis i c _ (Function.update c'.procs i call' i)
  rw [Function.update_self]
  have hcases := (callStep_cases hcallStep).2
  generalize hprev : c'.procs i = call at h hcall hcases
  cases hcases with
  | commit hins =>
    obtain ⟨hheight, hhighest⟩ := Accepted.commit_height hB hok.chain hcall hins
    exact ⟨c', _, hrun, hexec, hins, hheight, hhighest, Lts.Reaches.refl _⟩
  | readRebase =>
    obtain ⟨before, committed, hbefore, hcommit, hins, hheight, hhighest, hafter⟩ := h
    exact ⟨before, committed, hbefore, hcommit, hins, hheight, hhighest, hafter.trans hstep⟩
  | @rebase blk cproof s =>
    obtain ⟨before, committed, hbefore, hcommit, hins, hheight, hhighest, hafter⟩ := h
    obtain ⟨htop, hs, -⟩ := hrebasing i blk cproof _ hprev
    have hcommitted := (hc.trans hbefore).tail hcommit
    have hdb : c'.shared.db = committed.shared.db :=
      (hok.chain.wellFormed hB).eq_of_isPrefix (storage_isPrefix hB hcommitted hafter) (by omega)
    have hhighestState : M.highestState genesis c'.shared.db = .ok s := hs
    exact ⟨before, committed, c', _, hbefore, ⟨hcommit, hins, hheight, hhighest, hafter, hdb, hexec,
      s, hdb ▸ hhighestState, rfl⟩, Lts.Reaches.refl _⟩
  | _ => trivial

/-- **The trace of a call** that is made in a run. -/
theorem traced_run (hB : M.BuildsStates) (hc : (M.storage genesis).lts.Reachable c)
    (hrun : (M.storage genesis).lts.Reaches c c') (hidle : c.procs i = .idle) :
    M.Traced genesis i c c' (c'.procs i) := by
  induction hrun with
  | refl =>
    rw [hidle]
    trivial
  | @tail c' c'' hrun hnext ih =>
    obtain ⟨label, hexec⟩ := hnext
    have hexec : (M.storage genesis).exec c' label = some c'' := hexec
    have hstep : (M.storage genesis).lts.Reaches c' c'' := (Lts.Reaches.refl c').tail hexec
    rcases label with ⟨k, e⟩ | d
    · by_cases hki : k = i
      · subst hki
        exact Traced.step hB hc hrun ih hexec
      · have hsame : c''.procs i = c'.procs i := by
          obtain ⟨sh', call', -, rfl⟩ := Procs.exec_proc.mp hexec
          exact Function.update_of_ne (Ne.symm hki) _ _
        rw [hsame]
        exact ih.trans hstep
    · have hsame : c''.procs i = ended d (c'.procs i) := by
        obtain ⟨sh', -, rfl⟩ := Procs.exec_env.mp hexec
        rfl
      rw [hsame]
      exact (ih.trans hstep).ended d

/-- What a step puts on record as committed by a call is the block of that call. -/
theorem exec_committer (hB : M.BuildsStates) (hc : (M.storage genesis).lts.Reachable c)
    {label : (Nat × CallEvent) ⊕ StorageEvent Sealed}
    (hexec : (M.storage genesis).exec c label = some c') {h : Nat}
    (hi : c'.shared.committer[h]? = some i) :
    c.shared.committer[h]? = some i ∨
      ∃ blk cproof phase, c.procs i = .made blk cproof phase ∧ blk.header.height = h := by
  rcases label with ⟨k, e⟩ | d
  · obtain ⟨sh', call', hstep, rfl⟩ := Procs.exec_proc.mp hexec
    have hi : sh'.committer[h]? = some i := hi
    rcases (callStep_cases hstep).2.written with ⟨-, hsame⟩ | ⟨blk, cproof, hcall, -, hinsert⟩
    · exact .inl (hsame ▸ hi)
    · rw [hinsert] at hi
      rcases Table.of_getElem?_insert hi with ⟨hheight, rfl⟩ | hi
      · refine .inr ⟨blk, cproof, ?_⟩
        rcases hcall with hcall | hcall
        · exact ⟨_, hcall, hheight⟩
        · exact ⟨_, hcall, hheight⟩
      · exact .inl hi
  · obtain ⟨sh', hstep, rfl⟩ := Procs.exec_env.mp hexec
    have hcommitter := (storageStep_same hB (storage_reachable hB hc).1 hstep).2.2
    exact .inl (hcommitter ▸ hi)

/-- A call has committed no height but that of its block. -/
theorem committer_own (hB : M.BuildsStates) (hc : (M.storage genesis).lts.Reachable c) :
    ∀ h i, c.shared.committer[h]? = some i →
      ∃ blk cproof phase, c.procs i = .made blk cproof phase ∧ blk.header.height = h := by
  refine hc.invariant_of_reachable (I := fun c => ∀ h i, c.shared.committer[h]? = some i →
    ∃ blk cproof phase, c.procs i = .made blk cproof phase ∧ blk.header.height = h) ?_ ?_
  · rintro c ⟨hinit, -⟩ h i hi
    have hempty : c.shared.committer = ∅ := congrArg Shared.committer hinit
    rw [hempty] at hi
    exact absurd hi Table.getElem?_empty_ne
  · intro c label c' hreach hown hexec h i hi
    have hfound : ∃ blk cproof phase, c.procs i = .made blk cproof phase ∧ blk.header.height = h :=
      (exec_committer hB hreach hexec hi).elim (hown h i) id
    obtain ⟨blk, cproof, phase, hcall, hheight⟩ := hfound
    obtain ⟨phase', hcall'⟩ := exec_made hexec hcall
    exact ⟨blk, cproof, phase', hcall', hheight⟩

/-- **A call that has returned `Ok`** has put its block on top of the chain and rebased the mempool on
its state; the block is stored from then on, and it is the only one the call has committed. -/
theorem applied_of_returned (hB : M.BuildsStates) (hc : (M.storage genesis).lts.Reachable c)
    (hrun : (M.storage genesis).lts.Reaches c c') (hidle : c.procs i = .idle)
    (hreturned : c'.procs i = .made blk cproof (.returned (.ok ()))) :
    M.Holds c'.shared.db blk cproof ∧
      (∀ h, c'.shared.committer[h]? = some i ↔ h = blk.header.height) ∧
      ∃ before committed rebasing after, (M.storage genesis).lts.Reaches c before ∧
        M.Applies genesis i blk cproof before committed rebasing after ∧
        (M.storage genesis).lts.Reaches after c' := by
  have htraced := traced_run hB hc hrun hidle
  rw [hreturned] at htraced
  obtain ⟨before, committed, rebasing, after, hbefore, happlies, hafter⟩ := htraced
  have hcommitted := (hc.trans hbefore).tail happlies.commit
  have hrest := happlies.reads.trans (((Lts.Reaches.refl _).tail happlies.rebase).trans hafter)
  refine ⟨?_, fun h => ⟨fun hi => ?_, ?_⟩, before, committed, rebasing, after, hbefore, happlies,
    hafter⟩
  · exact (Holds.of_insert happlies.inserted).keeps (storage_isPrefix hB hcommitted hrest).keeps
  · obtain ⟨blk', cproof', phase, hmade, hheight⟩ := committer_own hB (hc.trans hrun) h i hi
    rw [hreturned] at hmade
    cases hmade
    exact hheight.symm
  · rintro rfl
    have hcall := (storage_reachable hB (hc.trans hrun)).2 i
    rw [hreturned] at hcall
    exact hcall

end Run

end Melstf

end Melnode
