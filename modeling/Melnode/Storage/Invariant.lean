import Melnode.Storage.Process

/-!
# The chain store invariant

Whatever the calls do, the tables are those of a chain. Each call carries its own assertion
(`CallOk`): what it has read belongs to a stored height, a block it is about to insert was accepted
on a stored state, a block it inserted is on record as its own. All of these are about rows below
the highest height, so they survive the commits of other calls (`Grows`).
-/

namespace Melnode

open Lib

namespace Melstf

variable {Sealed Unsealed : Type} {M : Melstf Sealed Unsealed} {genesis : GenesisConfig}

/-! ## The assertions -/

/-- What the calls share, at every moment. -/
structure SharedOk (M : Melstf Sealed Unsealed) (genesis : GenesisConfig) (sh : Shared Unsealed) :
    Prop where
  chain : M.Chain genesis sh.db
  cache : ∀ {h : Nat} {blk : Block}, sh.oldCache[h]? = some blk → sh.db.block? h = some blk
  fetched : ∀ {h : Nat} {blk : Block}, (h, blk) ∈ sh.fetched → sh.db.block? h = some blk
  committed : ∀ {h i : Nat}, sh.committer[h]? = some i → h ∈ sh.db.history

/-- A partial `highest_state` concerns a stored height. -/
def ReadingOk (M : Melstf Sealed Unsealed) (genesis : GenesisConfig) (db : Tables) :
    Reading Sealed → Prop
  | .start => True
  | .height h => h ≤ db.highestHeight
  | .block h blk => 0 < h ∧ h ≤ db.highestHeight ∧ db.block? h = some blk
  | .done s => ∃ k ≤ db.highestHeight, M.stateAt genesis db k = .ok s

/-- The block passed the checks on the state of a stored height. -/
def Accepted (M : Melstf Sealed Unsealed) (genesis : GenesisConfig) (db : Tables) (blk : Block)
    (cproof : ConsensusProof) : Prop :=
  ∃ k s s', k ≤ db.highestHeight ∧ M.stateAt genesis db k = .ok s ∧
    M.checkBlock s blk cproof = .ok s'

/-- What is known of call `i` by where it is. -/
def CallOk (M : Melstf Sealed Unsealed) (genesis : GenesisConfig) (sh : Shared Unsealed) (i : Nat) :
    Call Sealed → Prop
  | .idle => True
  | .made blk cproof phase =>
    match phase with
    | .checking r => M.ReadingOk genesis sh.db r
    | .queued => M.Accepted genesis sh.db blk cproof
    | .running => M.Accepted genesis sh.db blk cproof
    | .orphan => M.Accepted genesis sh.db blk cproof
    | .rebasing r => M.ReadingOk genesis sh.db r ∧ sh.committer[blk.header.height]? = some i
    | .returned (.ok ()) => sh.committer[blk.header.height]? = some i
    | .waiting => True
    | .returned (.error _) => True
    | .dropped => True

/-- How the shared state may change under a call: blocks are put on top. -/
structure Grows (sh sh' : Shared Unsealed) : Prop where
  db : sh.db.IsPrefix sh'.db
  committer : ∀ {h i : Nat}, sh.committer[h]? = some i → sh'.committer[h]? = some i

section Stable

variable {sh sh' : Shared Unsealed}

theorem ReadingOk.grows {db db' : Tables} {r : Reading Sealed} (hr : M.ReadingOk genesis db r)
    (hG : db.IsPrefix db') : M.ReadingOk genesis db' r := by
  cases r with
  | start => trivial
  | height h => exact Nat.le_trans hr hG.le
  | block h blk =>
    obtain ⟨h0, hle, hblk⟩ := hr
    exact ⟨h0, Nat.le_trans hle hG.le, hG.block? hblk⟩
  | done s =>
    obtain ⟨k, hk, hs⟩ := hr
    refine ⟨k, Nat.le_trans hk hG.le, ?_⟩
    rw [stateAt_isPrefix hG hk]
    exact hs

theorem Accepted.grows {blk : Block} {cproof : ConsensusProof}
    (h : M.Accepted genesis sh.db blk cproof) (hG : Grows sh sh') :
    M.Accepted genesis sh'.db blk cproof := by
  obtain ⟨k, s, s', hk, hs, hcheck⟩ := h
  refine ⟨k, s, s', Nat.le_trans hk hG.db.le, ?_, hcheck⟩
  rw [stateAt_isPrefix hG.db hk]
  exact hs

/-- Blocks put on top do not disturb a call. -/
theorem CallOk.grows {i : Nat} {call : Call Sealed} (h : M.CallOk genesis sh i call)
    (hG : Grows sh sh') : M.CallOk genesis sh' i call := by
  cases call with
  | idle => trivial
  | made blk cproof phase =>
    cases phase with
    | waiting => trivial
    | checking r => exact ReadingOk.grows h hG.db
    | queued => exact Accepted.grows h hG
    | running => exact Accepted.grows h hG
    | orphan => exact Accepted.grows h hG
    | rebasing r => exact ⟨ReadingOk.grows h.1 hG.db, hG.committer h.2⟩
    | dropped => trivial
    | returned res =>
      cases res with
      | ok u => exact hG.committer h
      | error e => trivial

theorem SharedOk.of_same (hok : M.SharedOk genesis sh) (hdb : sh'.db = sh.db)
    (hcache : sh'.oldCache = sh.oldCache) (hfetched : sh'.fetched = sh.fetched)
    (hcommitter : sh'.committer = sh.committer) : M.SharedOk genesis sh' := by
  refine ⟨?_, ?_, ?_, ?_⟩
  · rw [hdb]
    exact hok.chain
  · rw [hdb, hcache]
    exact hok.cache
  · rw [hdb, hfetched]
    exact hok.fetched
  · rw [hdb, hcommitter]
    exact hok.committed

theorem SharedOk.grows_of_same (hB : M.BuildsStates) (hok : M.SharedOk genesis sh)
    (hdb : sh'.db = sh.db) (hcommitter : sh'.committer = sh.committer) : Grows sh sh' := by
  refine ⟨?_, ?_⟩
  · rw [hdb]
    exact (hok.chain.wellFormed hB).isPrefix_refl
  · rw [hcommitter]
    exact id

end Stable

/-! ## Steps of a call -/

section Steps

variable {sh sh' : Shared Unsealed}

/-- A read keeps what is shared and its own assertion. -/
theorem ReadStep.ok (hok : M.SharedOk genesis sh) {r r' : Reading Sealed}
    (hr : M.ReadingOk genesis sh.db r) (hstep : M.ReadStep genesis sh r sh' r') :
    M.SharedOk genesis sh' ∧ M.ReadingOk genesis sh'.db r' ∧ sh'.db = sh.db ∧
      sh'.committer = sh.committer := by
  cases hstep with
  | height => exact ⟨hok, Nat.le_refl _, rfl, rfl⟩
  | genesis => exact ⟨hok, ⟨0, Nat.zero_le _, stateAt_zero _⟩, rfl, rfl⟩
  | cached h0 hblk => exact ⟨hok, ⟨h0, hr, hok.cache hblk⟩, rfl, rfl⟩
  | @fetched h blk h0 hblk =>
    refine ⟨⟨hok.chain, hok.cache, ?_, hok.committed⟩, ⟨h0, hr, hblk⟩, rfl, rfl⟩
    intro k b hmem
    rcases List.mem_cons.mp hmem with heq | hmem
    · cases heq
      exact hblk
    · exact hok.fetched hmem
  | missing => exact ⟨hok.of_same rfl rfl rfl rfl, hr, rfl, rfl⟩
  | @rebuilt h blk s hs =>
    obtain ⟨h0, hle, hblk⟩ := hr
    refine ⟨hok, ⟨h, hle, ?_⟩, rfl, rfl⟩
    unfold stateAt getState
    rw [if_pos h0, hblk]
    simp only [hs, Except.map]
  | mismatch => exact ⟨hok.of_same rfl rfl rfl rfl, hr, rfl, rfl⟩

/-- **A commit puts the next block on top of the chain.** -/
theorem Accepted.insertBlock (hB : M.BuildsStates) {db db' : Tables} {blk : Block}
    {cproof : ConsensusProof} (hchain : M.Chain genesis db) (h : M.Accepted genesis db blk cproof)
    (hins : M.insertBlock db blk cproof = some db') :
    M.Chain genesis db' ∧ db.IsPrefix db' ∧ blk.header.height ∉ db.history ∧
      blk.header.height ∈ db'.history := by
  obtain ⟨k, s, s', hk, hs, hcheck⟩ := h
  have hwf := hchain.wellFormed hB
  have hinserted := insertBlock_inserted hins
  obtain ⟨rfl, hheight⟩ := hwf.accepted_height hB hk hs hcheck hinserted.free
  obtain ⟨-, -, hpre⟩ := hchain.commit_spec hB hs hcheck hins
  refine ⟨Chain.commit hchain hs hcheck hins, hpre, ?_, ?_⟩
  · rw [hwf.height_mem]
    omega
  · rw [Std.ExtTreeMap.mem_iff_isSome_getElem?, hinserted.history, if_pos rfl]
    rfl

/-- What a commit of call `i` leaves of the shared state. -/
theorem SharedOk.commit (hB : M.BuildsStates) (hok : M.SharedOk genesis sh) {i : Nat} {blk : Block}
    {cproof : ConsensusProof} {db' : Tables} (h : M.Accepted genesis sh.db blk cproof)
    (hins : M.insertBlock sh.db blk cproof = some db')
    (hsh : sh' = { sh with db := db', committer := sh.committer.insert blk.header.height i }) :
    M.SharedOk genesis sh' ∧ Grows sh sh' ∧ sh'.committer[blk.header.height]? = some i := by
  subst hsh
  obtain ⟨hchain', hpre, hfree, hnew⟩ := h.insertBlock hB hok.chain hins
  have hmem : ∀ {k : Nat}, k ∈ sh.db.history → k ∈ db'.history := by
    intro k hk
    obtain ⟨row, hrow⟩ :=
      Option.isSome_iff_exists.mp (Std.ExtTreeMap.mem_iff_isSome_getElem?.mp hk)
    rw [Std.ExtTreeMap.mem_iff_isSome_getElem?, hpre.keeps.history hrow]
    rfl
  refine ⟨⟨hchain', ?_, ?_, ?_⟩, ⟨hpre, ?_⟩, ?_⟩
  · exact fun hblk => hpre.block? (hok.cache hblk)
  · exact fun hblk => hpre.block? (hok.fetched hblk)
  · intro k j hk
    rcases Table.of_getElem?_insert hk with ⟨rfl, -⟩ | hk
    · exact hnew
    · exact hmem (hok.committed hk)
  · intro k j hk
    show (sh.committer.insert blk.header.height i)[k]? = some j
    rw [Std.ExtTreeMap.getElem?_insert, if_neg]
    · exact hk
    · intro heq
      have heq' : blk.header.height = k := by simpa using heq
      exact hfree (heq' ▸ hok.committed hk)
  · show (sh.committer.insert blk.header.height i)[blk.header.height]? = some i
    simp

/-- **One step of a call** keeps the invariant and its own assertion, and only adds blocks. -/
theorem CallStep.ok (hB : M.BuildsStates) (hok : M.SharedOk genesis sh) {i : Nat} {e : CallEvent}
    {call call' : Call Sealed} (hcall : M.CallOk genesis sh i call)
    (hstep : M.CallStep genesis i sh e call sh' call') :
    M.SharedOk genesis sh' ∧ M.CallOk genesis sh' i call' ∧ Grows sh sh' := by
  have hrefl : Grows sh sh := hok.grows_of_same hB rfl rfl
  cases hstep with
  | invoke blk cproof => exact ⟨hok, trivial, hrefl⟩
  | acquire => exact ⟨hok.of_same rfl rfl rfl rfl, trivial, hok.grows_of_same hB rfl rfl⟩
  | readCheck _ hr =>
    obtain ⟨hok', hreading, hdb, hcommitter⟩ := hr.ok hok hcall
    exact ⟨hok', hreading, hok.grows_of_same hB hdb hcommitter⟩
  | accept hcheck =>
    obtain ⟨k, hk, hs⟩ := hcall
    exact ⟨hok, ⟨k, _, _, hk, hs, hcheck⟩, hrefl⟩
  | reject => exact ⟨hok.of_same rfl rfl rfl rfl, trivial, hok.grows_of_same hB rfl rfl⟩
  | panic => exact ⟨hok.of_same rfl rfl rfl rfl, hcall, hok.grows_of_same hB rfl rfl⟩
  | start => exact ⟨hok, hcall, hrefl⟩
  | commit hins =>
    obtain ⟨hok', hG, hmine⟩ := hok.commit hB (i := i) hcall hins rfl
    exact ⟨hok', ⟨trivial, hmine⟩, hG⟩
  | orphanCommit hins =>
    obtain ⟨hok', hG, -⟩ := hok.commit hB (i := i) hcall hins rfl
    exact ⟨hok', trivial, hG⟩
  | failQueued => exact ⟨hok.of_same rfl rfl rfl rfl, trivial, hok.grows_of_same hB rfl rfl⟩
  | failRunning => exact ⟨hok.of_same rfl rfl rfl rfl, trivial, hok.grows_of_same hB rfl rfl⟩
  | orphanFail => exact ⟨hok, trivial, hrefl⟩
  | readRebase _ hr =>
    obtain ⟨hok', hreading, hdb, hcommitter⟩ := hr.ok hok hcall.1
    refine ⟨hok', ⟨hreading, ?_⟩, hok.grows_of_same hB hdb hcommitter⟩
    rw [hcommitter]
    exact hcall.2
  | rebase => exact ⟨hok.of_same rfl rfl rfl rfl, hcall.2, hok.grows_of_same hB rfl rfl⟩
  | dropWaiting => exact ⟨hok, trivial, hrefl⟩
  | dropRunning => exact ⟨hok.of_same rfl rfl rfl rfl, hcall, hok.grows_of_same hB rfl rfl⟩
  | dropChecking => exact ⟨hok.of_same rfl rfl rfl rfl, trivial, hok.grows_of_same hB rfl rfl⟩
  | dropQueued => exact ⟨hok.of_same rfl rfl rfl rfl, trivial, hok.grows_of_same hB rfl rfl⟩
  | dropRebasing => exact ⟨hok.of_same rfl rfl rfl rfl, trivial, hok.grows_of_same hB rfl rfl⟩

end Steps

/-! ## Steps of the environment -/

section Environment

variable {sh sh' : Shared Unsealed}

/-- The environment leaves the rows alone; reopening finds them as they were. -/
theorem storageStep_same (hB : M.BuildsStates) (hok : M.SharedOk genesis sh)
    {d : StorageEvent Sealed} (h : M.storageStep genesis d sh = some sh') :
    M.SharedOk genesis sh' ∧ sh'.db = sh.db ∧ sh'.committer = sh.committer := by
  cases storageStep_cases h with
  | fetch _ hblk =>
    refine ⟨⟨hok.chain, hok.cache, ?_, hok.committed⟩, rfl, rfl⟩
    intro j b hmem
    rcases List.mem_cons.mp hmem with heq | hmem
    · cases heq
      exact hblk
    · exact hok.fetched hmem
  | @fill k blk _ hmem =>
    refine ⟨⟨hok.chain, ?_, hok.fetched, hok.committed⟩, rfl, rfl⟩
    intro j b hj
    rcases Table.of_getElem?_insert hj with ⟨rfl, rfl⟩ | hj
    · exact hok.fetched hmem
    · exact hok.cache hj
  | evict k =>
    refine ⟨⟨hok.chain, ?_, hok.fetched, hok.committed⟩, rfl, rfl⟩
    intro j b hj
    exact hok.cache (Table.of_getElem?_erase hj)
  | reopen =>
    have heq := (hok.chain.wellFormed hB).opened_eq
    unfold openStorage
    rw [heq]
    refine ⟨⟨hok.chain, ?_, ?_, hok.committed⟩, rfl, rfl⟩
    · intro j b hj
      exact absurd hj Table.getElem?_empty_ne
    · intro j b hmem
      cases hmem
  | _ => exact ⟨hok.of_same rfl rfl rfl rfl, rfl, rfl⟩

theorem CallOk.ended {i : Nat} {call : Call Sealed} (d : StorageEvent Sealed)
    (h : M.CallOk genesis sh i call) : M.CallOk genesis sh i (ended d call) := by
  cases d with
  | reopen =>
    cases call with
    | idle => exact h
    | made blk cproof phase =>
      cases phase with
      | returned res => exact h
      | _ => trivial
  | _ => exact h

end Environment

/-! ## All runs -/

/-- The calls of a storage that starts in a given way. -/
def storageFrom (M : Melstf Sealed Unsealed) (genesis : GenesisConfig)
    (opened : Shared Unsealed → Prop) :
    Procs Nat (Shared Unsealed) (Call Sealed) CallEvent (StorageEvent Sealed) :=
  { M.storage genesis with init := opened }

theorem storageFrom_outline (hB : M.BuildsStates) {opened : Shared Unsealed → Prop}
    (hopened : ∀ sh, opened sh → M.SharedOk genesis sh) :
    (M.storageFrom genesis opened).Outline (fun _ _ => True) (M.SharedOk genesis)
      (M.CallOk genesis) fun _ => Grows where
  init hinit := hopened _ hinit
  start _ := trivial
  step _ _ hok hcall hstep := by
    obtain ⟨-, hcases⟩ := callStep_cases hstep
    exact hcases.ok hB hok hcall
  stable _ _ hG hcall := hcall.grows hG
  env _ _ hok hcalls hstep := by
    obtain ⟨hok', hdb, hcommitter⟩ := storageStep_same hB hok hstep
    exact ⟨hok', fun i => ((hcalls i).grows (hok.grows_of_same hB hdb hcommitter)).ended _⟩

theorem storageFrom_reachable (hB : M.BuildsStates) {opened : Shared Unsealed → Prop}
    (hopened : ∀ sh, opened sh → M.SharedOk genesis sh)
    {c : Procs.Config Nat (Shared Unsealed) (Call Sealed)}
    (hc : (M.storageFrom genesis opened).lts.Reachable c) :
    M.SharedOk genesis c.shared ∧ ∀ i, M.CallOk genesis c.shared i (c.procs i) :=
  (storageFrom_outline hB hopened).reachable hc.guard_true

theorem SharedOk.fresh : M.SharedOk genesis (M.openStorage genesis Tables.fresh ∅) := by
  refine ⟨Chain.opened, ?_, ?_, ?_⟩
  · intro h blk hblk
    exact absurd hblk Table.getElem?_empty_ne
  · intro h blk hmem
    cases hmem
  · intro h i hi
    exact absurd hi Table.getElem?_empty_ne

theorem storage_reachable (hB : M.BuildsStates) {c : Procs.Config Nat (Shared Unsealed) (Call Sealed)}
    (hc : (M.storage genesis).lts.Reachable c) :
    M.SharedOk genesis c.shared ∧ ∀ i, M.CallOk genesis c.shared i (c.procs i) := by
  have hopened : ∀ sh, sh = M.openStorage genesis Tables.fresh ∅ → M.SharedOk genesis sh := by
    rintro sh rfl
    exact SharedOk.fresh
  exact storageFrom_reachable hB hopened hc

/-- **One step of a storage** keeps the invariant and every assertion, and only adds blocks. -/
theorem exec_ok (hB : M.BuildsStates) {c c' : Procs.Config Nat (Shared Unsealed) (Call Sealed)}
    {label : (Nat × CallEvent) ⊕ StorageEvent Sealed} (hok : M.SharedOk genesis c.shared)
    (hcalls : ∀ i, M.CallOk genesis c.shared i (c.procs i))
    (hexec : (M.storage genesis).exec c label = some c') :
    M.SharedOk genesis c'.shared ∧ (∀ i, M.CallOk genesis c'.shared i (c'.procs i)) ∧
      Grows c.shared c'.shared := by
  cases label with
  | inl call =>
    obtain ⟨s', l', hstep, rfl⟩ := Procs.exec_proc.mp hexec
    obtain ⟨hok', hcall, hG⟩ := (callStep_cases hstep).2.ok hB hok (hcalls call.1)
    refine ⟨hok', fun j => ?_, hG⟩
    show M.CallOk genesis s' j (Function.update c.procs call.1 l' j)
    by_cases hj : j = call.1
    · subst hj
      rw [Function.update_self]
      exact hcall
    · rw [Function.update_of_ne hj]
      exact (hcalls j).grows hG
  | inr d =>
    obtain ⟨s', hstep, rfl⟩ := Procs.exec_env.mp hexec
    obtain ⟨hok', hdb, hcommitter⟩ := storageStep_same hB hok hstep
    have hG : Grows c.shared s' := hok.grows_of_same hB hdb hcommitter
    exact ⟨hok', fun i => ((hcalls i).grows hG).ended d, hG⟩

/-- The tables of a run only grow. -/
theorem storage_isPrefix (hB : M.BuildsStates)
    {c c' : Procs.Config Nat (Shared Unsealed) (Call Sealed)}
    (hc : (M.storage genesis).lts.Reachable c) (hrun : (M.storage genesis).lts.Reaches c c') :
    c.shared.db.IsPrefix c'.shared.db := by
  induction hrun with
  | refl => exact ((storage_reachable hB hc).1.chain.wellFormed hB).isPrefix_refl
  | tail hrun hnext ih =>
    obtain ⟨hok, hcalls⟩ := storage_reachable hB (hc.trans hrun)
    obtain ⟨label, hexec⟩ := hnext
    exact ih.trans (exec_ok hB hok hcalls hexec).2.2.db

/-- **Chain store invariant.** In every state any interleaving of calls, failures, dropped futures
and restarts leads to, the three tables are in step and every block was accepted on the state below
it; the rows stay in every later state; and of the calls for one height at most one has returned
`Ok`. -/
theorem storage_invariant (hB : M.BuildsStates)
    {c : Procs.Config Nat (Shared Unsealed) (Call Sealed)}
    (hc : (M.storage genesis).lts.Reachable c) :
    M.WellFormed genesis c.shared.db ∧
      (∀ c', (M.storage genesis).lts.Reaches c c' → c.shared.db.Keeps c'.shared.db) ∧
      ∀ i j blk₁ blk₂ cproof₁ cproof₂, c.procs i = .made blk₁ cproof₁ (.returned (.ok ())) →
        c.procs j = .made blk₂ cproof₂ (.returned (.ok ())) →
        blk₁.header.height = blk₂.header.height → i = j := by
  obtain ⟨hok, hcalls⟩ := storage_reachable hB hc
  refine ⟨hok.chain.wellFormed hB, fun c' hrun => (storage_isPrefix hB hc hrun).keeps, ?_⟩
  intro i j blk₁ blk₂ cproof₁ cproof₂ hi hj hheight
  have hci := hcalls i
  have hcj := hcalls j
  rw [hi] at hci
  rw [hj, CallOk, ← hheight] at hcj
  exact Option.some.inj (hci.symm.trans hcj)

/-- The three-staker network after its first block, signed by everybody. -/
theorem storage_invariant_firstBlock :
    let c := Ledger.committed (Ledger.firstBlock 1) [1, 2, 3]
    ledger.WellFormed Ledger.threeStakers c.shared.db ∧
      (∀ c', (ledger.storage Ledger.threeStakers).lts.Reaches c c' →
        c.shared.db.Keeps c'.shared.db) ∧
      ∀ i j blk₁ blk₂ cproof₁ cproof₂, c.procs i = .made blk₁ cproof₁ (.returned (.ok ())) →
        c.procs j = .made blk₂ cproof₂ (.returned (.ok ())) →
        blk₁.header.height = blk₂.header.height → i = j :=
  storage_invariant ledger_builds (storageAfter_reachable _ _ (by decide +kernel))

end Melstf

end Melnode
