import Melnode.Storage.Invariant

/-!
# `apply_block` alone

What `apply_block` does when nobody else uses the storage and the database does not fail, as one
function. `reaches_storeBlock` finds its successful calls among the interleaved ones.
-/

namespace Melnode

open Lib

variable {Sealed Unsealed : Type}

/-- What `apply_block` works on. -/
structure Store (Unsealed : Type) where
  db : Tables
  mempool : Mempool Unsealed

namespace Melstf

variable (M : Melstf Sealed Unsealed) (genesis : GenesisConfig)

/-- `Storage::apply_block`, undisturbed. -/
def storeBlock (st : Store Unsealed) (blk : Block) (cproof : ConsensusProof) :
    Except (Fault ApplyError) Unit × Store Unsealed :=
  match M.highestState genesis st.db with
  | .error site => (.error (.panic site), st)
  | .ok highestState =>
    match M.checkBlock highestState blk cproof with
    | .error f => (.error f, st)
    | .ok _ =>
      match M.insertBlock st.db blk cproof with
      | none => (.error (.bail .database), st)
      | some db =>
        match M.highestState genesis db with
        | .error site => (.error (.panic site), { st with db := db })
        | .ok next => (.ok (), ⟨db, Mempool.rebase M next⟩)

variable {M genesis}

theorem storeBlock_ok_iff {st st' : Store Unsealed} {blk : Block} {cproof : ConsensusProof} :
    M.storeBlock genesis st blk cproof = (.ok (), st') ↔
      ∃ s s' next db, M.highestState genesis st.db = .ok s ∧
        M.checkBlock s blk cproof = .ok s' ∧ M.insertBlock st.db blk cproof = some db ∧
        M.highestState genesis db = .ok next ∧ st' = ⟨db, Mempool.rebase M next⟩ := by
  constructor
  · intro h
    unfold storeBlock at h
    split at h
    · cases h
    · next s hs =>
      split at h
      · cases h
      · next s' hs' =>
        split at h
        · cases h
        · next db hdb =>
          split at h
          · cases h
          · next next hnext =>
            cases h
            exact ⟨s, s', next, db, hs, hs', hdb, hnext, rfl⟩
  · rintro ⟨s, s', next, db, hs, hs', hdb, hnext, rfl⟩
    unfold storeBlock
    simp only [hs, hs', hdb, hnext]

/-! ## What is committed -/

/-- Accepted blocks inserted one after the other. -/
inductive Commits (M : Melstf Sealed Unsealed) (genesis : GenesisConfig) :
    Tables → List Block → Tables → Prop where
  | nil (db : Tables) : Commits M genesis db [] db
  | cons {db db₁ db₂ : Tables} {s s' : Sealed} {blk : Block} {cproof : ConsensusProof}
      {blks : List Block} (hs : M.highestState genesis db = .ok s)
      (hcheck : M.checkBlock s blk cproof = .ok s') (hins : M.insertBlock db blk cproof = some db₁)
      (hrest : Commits M genesis db₁ blks db₂) : Commits M genesis db (blk :: blks) db₂

namespace Commits

variable {db db₁ db₂ : Tables} {blks blks' : List Block}

theorem append (h : M.Commits genesis db blks db₁) (h' : M.Commits genesis db₁ blks' db₂) :
    M.Commits genesis db (blks ++ blks') db₂ := by
  induction h with
  | nil => exact h'
  | cons hs hcheck hins _ ih => exact .cons hs hcheck hins (ih h')

theorem chain (h : M.Commits genesis db blks db₁) (hchain : M.Chain genesis db) :
    M.Chain genesis db₁ := by
  induction h with
  | nil => exact hchain
  | cons hs hcheck hins _ ih => exact ih (hchain.commit hs hcheck hins)

/-- The heights of the blocks are those above the old one, in order. -/
theorem heights (hB : M.BuildsStates) (h : M.Commits genesis db blks db₁)
    (hchain : M.Chain genesis db) :
    db.IsPrefix db₁ ∧ db₁.highestHeight = db.highestHeight + blks.length ∧
      blks.map (fun blk => blk.header.height) =
        List.range' (db.highestHeight + 1) blks.length := by
  induction h with
  | nil => exact ⟨(hchain.wellFormed hB).isPrefix_refl, rfl, rfl⟩
  | @cons db db' db₂ s s' blk cproof blks hs hcheck hins hrest ih =>
    obtain ⟨hheight, hH, hpre⟩ := hchain.commit_spec hB hs hcheck hins
    obtain ⟨hpre', hH', hrange⟩ := ih (hchain.commit hs hcheck hins)
    refine ⟨hpre.trans hpre', ?_, ?_⟩
    · rw [hH', hH, List.length_cons]
      omega
    · rw [List.map_cons, hrange, hH, hheight, List.length_cons, List.range'_succ]

end Commits

/-- A call commits its block or nothing, and its block if it returns `Ok`. -/
theorem storeBlock_commits {st st' : Store Unsealed} {blk : Block} {cproof : ConsensusProof}
    {res : Except (Fault ApplyError) Unit}
    (h : M.storeBlock genesis st blk cproof = (res, st')) :
    ∃ blks, M.Commits genesis st.db blks st'.db ∧ (res = .ok () → blks = [blk]) := by
  have hnone : ∀ {f : Fault ApplyError}, (.error f, st) = (res, st') →
      ∃ blks, M.Commits genesis st.db blks st'.db ∧ (res = .ok () → blks = [blk]) := by
    rintro f heq
    cases heq
    exact ⟨[], .nil _, nofun⟩
  unfold storeBlock at h
  split at h
  · exact hnone h
  · next s hs =>
    split at h
    · exact hnone h
    · next s' hs' =>
      split at h
      · exact hnone h
      · next db hdb =>
        have hone : M.Commits genesis st.db [blk] db := .cons hs hs' hdb (.nil _)
        split at h
        · cases h
          exact ⟨[blk], hone, nofun⟩
        · cases h
          exact ⟨[blk], hone, fun _ => rfl⟩

/-- A successful call is for the height above the highest. -/
theorem storeBlock_ok_height (hB : M.BuildsStates) {st st' : Store Unsealed} {blk : Block}
    {cproof : ConsensusProof} (hchain : M.Chain genesis st.db)
    (h : M.storeBlock genesis st blk cproof = (.ok (), st')) :
    blk.header.height = st.db.highestHeight + 1 := by
  obtain ⟨s, s', next, db, hs, hs', hdb, -, -⟩ := storeBlock_ok_iff.mp h
  exact (hchain.commit_spec hB hs hs' hdb).1

/-! ## Among the calls of a storage -/

section Reach

variable (procs : Nat → Call Sealed) {i : Nat} {blk : Block} {cproof : ConsensusProof}
  {sh sh' : Shared Unsealed}

/-- A step of call `i` that its own future takes once it is made. -/
def Continues (i : Nat) (_ : Procs.Config Nat (Shared Unsealed) (Call Sealed)) :
    (Nat × CallEvent) ⊕ StorageEvent Sealed → Prop
  | .inl (_, .invoke _ _) => False
  | .inl (_, .drop) => False
  | .inl (j, _) => j = i
  | .inr _ => False

/-- A step of call `i`, the others standing still. -/
theorem continues_callStep {e : CallEvent} {call call' : Call Sealed}
    (h : M.callStep genesis i e sh call = some (sh', call'))
    (hgoes : Continues i ⟨sh, procs⟩ (.inl (i, e))) :
    ((M.storage genesis).lts.guard (Continues i)).Reaches ⟨sh, Function.update procs i call⟩
      ⟨sh', Function.update procs i call'⟩ := by
  have hstep : (M.storage genesis).exec ⟨sh, Function.update procs i call⟩ (.inl (i, e)) =
      some ⟨sh', Function.update procs i call'⟩ := by
    refine Procs.exec_proc.mpr ⟨sh', call', ?_, ?_⟩
    · show M.callStep genesis i e sh (Function.update procs i call i) = _
      rw [Function.update_self]
      exact h
    · show _ = Procs.Config.mk sh' (Function.update (Function.update procs i call) i call')
      rw [Function.update_idem]
  exact (Lts.Reaches.refl _).tail (e := .inl (i, e)) ⟨hgoes, hstep⟩

/-- The reads of `highest_state`, in either place of the call. -/
theorem continues_reads {phase : Reading Sealed → Phase Sealed}
    (hphase : ∀ {t t' : Shared Unsealed} {r r' : Reading Sealed}, t.crashed = false →
      M.readStep genesis false t r = some (t', r') →
      M.callStep genesis i (.read false) t (.made blk cproof (phase r)) =
        some (t', .made blk cproof (phase r')))
    (hcrash : sh.crashed = false) {s : Sealed} (hs : M.highestState genesis sh.db = .ok s) :
    ∃ fetched, ((M.storage genesis).lts.guard (Continues i)).Reaches
      ⟨sh, Function.update procs i (.made blk cproof (phase .start))⟩
      ⟨{ sh with fetched := fetched }, Function.update procs i (.made blk cproof (phase (.done s)))⟩ := by
  have hheight : M.readStep genesis false sh .start = some (sh, .height sh.db.highestHeight) := rfl
  have hstart := continues_callStep procs (hphase hcrash hheight) rfl
  unfold highestState at hs
  rcases Nat.eq_zero_or_pos sh.db.highestHeight with hzero | hpos
  · rw [hzero, stateAt_zero] at hs
    cases hs
    have hgenesis : M.readStep genesis false sh (.height sh.db.highestHeight) =
        some (sh, .done (M.genesisState genesis)) := by
      rw [hzero]
      rfl
    exact ⟨sh.fetched, hstart.trans (continues_callStep procs (hphase hcrash hgenesis) rfl)⟩
  · obtain ⟨b, hb, hhash, rfl⟩ := stateAt_ok hpos hs
    have hfetch : M.readStep genesis false sh (.height sh.db.highestHeight) =
        some ({ sh with fetched := (sh.db.highestHeight, b) :: sh.fetched },
          .block sh.db.highestHeight b) := by
      simp [readStep, hpos, hb]
    have hrebuild : M.readStep genesis false
        { sh with fetched := (sh.db.highestHeight, b) :: sh.fetched }
          (.block sh.db.highestHeight b) =
        some ({ sh with fetched := (sh.db.highestHeight, b) :: sh.fetched },
          .done (M.fromBlock b (M.getStakeset genesis sh.db sh.db.highestHeight))) := by
      simp [readStep, rebuildState, hhash]
    refine ⟨(sh.db.highestHeight, b) :: sh.fetched, ?_⟩
    have hmiddle := hstart.trans (continues_callStep procs (hphase hcrash hfetch) rfl)
    exact hmiddle.trans (continues_callStep procs (hphase (by exact hcrash) hrebuild) rfl)

theorem continues_checking (hcrash : sh.crashed = false) {s : Sealed}
    (hs : M.highestState genesis sh.db = .ok s) :
    ∃ fetched, ((M.storage genesis).lts.guard (Continues i)).Reaches
      ⟨sh, Function.update procs i (.made blk cproof (.checking .start))⟩
      ⟨{ sh with fetched := fetched },
        Function.update procs i (.made blk cproof (.checking (.done s)))⟩ := by
  refine continues_reads procs ?_ hcrash hs
  intro t t' r r' hc hr
  simp [callStep, hc, hr]

theorem continues_rebasing (hcrash : sh.crashed = false) {s : Sealed}
    (hs : M.highestState genesis sh.db = .ok s) :
    ∃ fetched, ((M.storage genesis).lts.guard (Continues i)).Reaches
      ⟨sh, Function.update procs i (.made blk cproof (.rebasing .start))⟩
      ⟨{ sh with fetched := fetched },
        Function.update procs i (.made blk cproof (.rebasing (.done s)))⟩ := by
  refine continues_reads procs ?_ hcrash hs
  intro t t' r r' hc hr
  simp [callStep, hc, hr]

/-- A call that is accepted and that the tables take gets as far as its commit. -/
theorem continues_commit (hlock : sh.lock = none) (hcrash : sh.crashed = false) {s s' : Sealed}
    {db : Tables} (hs : M.highestState genesis sh.db = .ok s)
    (hs' : M.checkBlock s blk cproof = .ok s') (hdb : M.insertBlock sh.db blk cproof = some db) :
    ∃ fetched, ((M.storage genesis).lts.guard (Continues i)).Reaches
      ⟨sh, Function.update procs i (.made blk cproof .waiting)⟩
      ⟨{ sh with
          lock := some i, fetched := fetched, db := db,
          committer := sh.committer.insert blk.header.height i },
        Function.update procs i (.made blk cproof (.rebasing .start))⟩ := by
  -- up to the checks
  have hacquire : M.callStep genesis i .acquire sh (.made blk cproof .waiting) =
      some ({ sh with lock := some i }, .made blk cproof (.checking .start)) := by
    simp [callStep, hcrash, hlock]
  have hchecking : ∃ fetched, ((M.storage genesis).lts.guard (Continues i)).Reaches
      ⟨{ sh with lock := some i }, Function.update procs i (.made blk cproof (.checking .start))⟩
      ⟨{ sh with lock := some i, fetched := fetched },
        Function.update procs i (.made blk cproof (.checking (.done s)))⟩ :=
    continues_checking procs (show ({ sh with lock := some i } : Shared Unsealed).crashed = false
      from hcrash) hs
  obtain ⟨f₁, hreads₁⟩ := hchecking
  -- the transaction
  have hcheck : M.callStep genesis i .check { sh with lock := some i, fetched := f₁ }
      (.made blk cproof (.checking (.done s))) =
        some ({ sh with lock := some i, fetched := f₁ }, .made blk cproof .queued) := by
    simp [callStep, hcrash, hs']
  have hstart : M.callStep genesis i .start { sh with lock := some i, fetched := f₁ }
      (.made blk cproof .queued) =
        some ({ sh with lock := some i, fetched := f₁ }, .made blk cproof .running) := by
    simp [callStep, hcrash]
  have hcommit : M.callStep genesis i .commit { sh with lock := some i, fetched := f₁ }
      (.made blk cproof .running) =
        some ({ sh with
          lock := some i, fetched := f₁, db := db,
          committer := sh.committer.insert blk.header.height i },
            .made blk cproof (.rebasing .start)) := by
    simp [callStep, hcrash, hdb]
  have hbefore := (continues_callStep procs hacquire rfl).trans hreads₁
  have hmiddle := ((continues_callStep procs hcheck rfl).trans
    (continues_callStep procs hstart rfl)).trans (continues_callStep procs hcommit rfl)
  exact ⟨f₁, hbefore.trans hmiddle⟩

/-- The call is made. -/
theorem reaches_invoke (hidle : procs i = .idle) (hcrash : sh.crashed = false) :
    (M.storage genesis).lts.Reaches ⟨sh, procs⟩
      ⟨sh, Function.update procs i (.made blk cproof .waiting)⟩ := by
  have hinvoke : M.callStep genesis i (.invoke blk cproof) sh (procs i) =
      some (sh, .made blk cproof .waiting) := by
    rw [hidle]
    simp [callStep, hcrash]
  exact (Lts.Reaches.refl _).tail (e := .inl (i, .invoke blk cproof))
    (Procs.exec_proc.mpr ⟨_, _, hinvoke, rfl⟩)

/-- An accepted call that the tables take gets as far as its commit. -/
theorem reaches_commit (hidle : procs i = .idle) (hlock : sh.lock = none)
    (hcrash : sh.crashed = false) {s s' : Sealed} {db : Tables}
    (hs : M.highestState genesis sh.db = .ok s) (hs' : M.checkBlock s blk cproof = .ok s')
    (hdb : M.insertBlock sh.db blk cproof = some db) :
    ∃ fetched, (M.storage genesis).lts.Reaches ⟨sh, procs⟩
      ⟨{ sh with
          lock := some i, fetched := fetched, db := db,
          committer := sh.committer.insert blk.header.height i },
        Function.update procs i (.made blk cproof (.rebasing .start))⟩ := by
  obtain ⟨fetched, hgoes⟩ := continues_commit procs hlock hcrash hs hs' hdb
  exact ⟨fetched, (reaches_invoke procs hidle hcrash).trans hgoes.of_guard⟩

/-- **A successful undisturbed call is a run of the storage.** -/
theorem reaches_storeBlock (hidle : procs i = .idle) (hlock : sh.lock = none)
    (hcrash : sh.crashed = false) {st : Store Unsealed}
    (h : M.storeBlock genesis ⟨sh.db, sh.mempool⟩ blk cproof = (.ok (), st)) :
    ∃ sh', (M.storage genesis).lts.Reaches ⟨sh, procs⟩
        ⟨sh', Function.update procs i (.made blk cproof (.returned (.ok ())))⟩ ∧
      sh'.db = st.db ∧ sh'.mempool = st.mempool ∧ sh'.lock = none ∧ sh'.crashed = false := by
  obtain ⟨s, s', next, db, hs, hs', hdb, hnext, rfl⟩ := storeBlock_ok_iff.mp h
  obtain ⟨f₁, hbefore⟩ := reaches_commit procs hidle hlock hcrash hs hs' hdb
  have hrebasing : ∃ fetched, ((M.storage genesis).lts.guard (Continues i)).Reaches
      ⟨{ sh with
          lock := some i, fetched := f₁, db := db,
          committer := sh.committer.insert blk.header.height i },
        Function.update procs i (.made blk cproof (.rebasing .start))⟩
      ⟨{ sh with
          lock := some i, fetched := fetched, db := db,
          committer := sh.committer.insert blk.header.height i },
        Function.update procs i (.made blk cproof (.rebasing (.done next)))⟩ :=
    continues_rebasing procs (show ({ sh with
      lock := some i, fetched := f₁, db := db,
      committer := sh.committer.insert blk.header.height i } : Shared Unsealed).crashed = false
        from hcrash) hnext
  obtain ⟨f₂, hreads₂⟩ := hrebasing
  have hrebase : M.callStep genesis i .rebase { sh with
      lock := some i, fetched := f₂, db := db,
      committer := sh.committer.insert blk.header.height i }
      (.made blk cproof (.rebasing (.done next))) =
        some ({ sh with
          lock := none, fetched := f₂, db := db, mempool := Mempool.rebase M next,
          committer := sh.committer.insert blk.header.height i },
            .made blk cproof (.returned (.ok ()))) := by
    simp [callStep, hcrash]
  have hafter := hreads₂.trans (continues_callStep procs hrebase rfl)
  exact ⟨_, hbefore.trans hafter.of_guard, rfl, rfl, rfl, hcrash⟩

end Reach

end Melstf

end Melnode
