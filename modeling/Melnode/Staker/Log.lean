import Melnode.Lib.Log
import Melnode.Staker.Agreement

/-!
# One log

What the stakers store is one log of headers: a staker reads the next header of it or, having read
them all, appends one (`stakers_refine_log`). Blocks, proofs, rounds, restarts and whatever else the
network does in between are no steps of the log.
-/

namespace Melnode

open Lib

/-- The stored headers, from height 1 on. -/
def Tables.headers (db : Tables) : List Header :=
  (List.range' 1 db.highestHeight).filterMap fun h => (db.block? h).map Block.header

variable {Sealed Unsealed ι : Type}

namespace Melstf

variable {M : Melstf Sealed Unsealed} {genesis : GenesisConfig} {cfg : ι → StakerConfig}
  {headers : Set Header}

/-! ## The headers of a chain -/

/-- Chains that agree hold prefixes of each other. -/
theorem headers_isPrefix_of_same {db db' : Tables} (hwf : M.WellFormed genesis db)
    (hwf' : M.WellFormed genesis db') (hle : db.highestHeight ≤ db'.highestHeight)
    (hsame : ∀ h {blk blk'}, db.block? h = some blk → db'.block? h = some blk' →
      blk.header = blk'.header) : db.headers <+: db'.headers := by
  have hrange : List.range' 1 db.highestHeight <+: List.range' 1 db'.highestHeight := by
    obtain ⟨d, hd⟩ := Nat.le.dest hle
    rw [← hd, ← List.range'_append_1]
    exact List.prefix_append _ _
  have hcongr : db.headers = (List.range' 1 db.highestHeight).filterMap fun h =>
      (db'.block? h).map Block.header := by
    apply List.filterMap_congr
    intro h hh
    obtain ⟨h1, hH⟩ := List.mem_range'_1.mp hh
    obtain ⟨blk, hblk⟩ := hwf.block_isSome h1 (by omega)
    obtain ⟨blk', hblk'⟩ := hwf'.block_isSome h1 (by omega)
    rw [hblk, hblk', Option.map_some, Option.map_some, hsame h hblk hblk']
  rw [hcongr]
  exact hrange.filterMap _

theorem headers_isPrefix {db db' : Tables} (hwf : M.WellFormed genesis db)
    (hwf' : M.WellFormed genesis db') (hG : db.IsPrefix db') : db.headers <+: db'.headers := by
  refine headers_isPrefix_of_same hwf hwf' hG.le fun h {blk blk'} hblk hblk' => ?_
  rw [hG.block? hblk] at hblk'
  cases hblk'
  rfl

theorem headers_opened : (Tables.opened genesis Tables.fresh).headers = [] := by
  unfold Tables.headers
  rw [Chain.highestHeight_opened]
  rfl

/-! ## A step of the network -/

/-- A node forgets no failed round. -/
theorem nodeStep_failed_subset {n n' : Node Sealed Unsealed} {c : StakerConfig}
    {e : NodeEvent Sealed} (h : M.nodeStep genesis c n e = some n') : n.failed ⊆ n'.failed := by
  cases e with
  | storage label =>
    obtain ⟨-, storage, -, rfl⟩ := nodeStep_storage_eq h
    exact List.Subset.refl _
  | staker e =>
    obtain ⟨-, hcases⟩ := stakerStep_cases h
    cases hcases with
    | finishErr =>
      dsimp only
      split
      · exact List.Subset.refl _
      · exact List.subset_cons_self _ _
    | _ => exact List.Subset.refl _

/-- What a step of a staker leaves of what was. -/
structure Outgrows (n n' : Node Sealed Unsealed) : Prop where
  db : n.storage.shared.db.IsPrefix n'.storage.shared.db
  failed : n.failed ⊆ n'.failed

theorem Outgrows.refl {n : Node Sealed Unsealed} (hB : M.BuildsStates) (hok : M.NodeOk genesis n) :
    Outgrows n n :=
  ⟨(hok.shared.chain.wellFormed hB).isPrefix_refl, List.Subset.refl _⟩

theorem ActorStep.outgrows [DecidableEq ι] {i : ι} {t t' : Traffic ι}
    {a a' : StakerActor Sealed Unsealed} (hB : M.BuildsStates) {e : ActorEvent Sealed}
    (h : M.ActorStep genesis cfg i t a e t' a') (hok : M.NodeOk genesis a.node) :
    Outgrows a.node a'.node := by
  cases h with
  | node _ hstep => exact ⟨nodeStep_isPrefix hB hok hstep, nodeStep_failed_subset hstep⟩
  | restart hstep =>
    obtain ⟨storage, hexec, rfl⟩ := restart_cases hstep
    refine ⟨?_, List.subset_append_right _ _⟩
    show a.node.storage.shared.db.IsPrefix storage.shared.db
    rw [reopen_db hB hok.shared hexec]
    exact (hok.shared.chain.wellFormed hB).isPrefix_refl
  | _ => exact Outgrows.refl hB hok

section Steps

variable {c c' : Procs.Config ι (Traffic ι) (StakerActor Sealed Unsealed)}

/-- Trust is only lost. -/
theorem Untrusted.mono (hgrows : ∀ i, Outgrows (c.procs i).node (c'.procs i).node) {height : Nat}
    {pubkey : Ed25519PK} (h : Untrusted cfg c height pubkey) : Untrusted cfg c' height pubkey :=
  fun i hi => (hgrows i).failed (h i hi)

/-- Where few are untrusted in the end, few were before. -/
theorem FewUntrusted.back (hB : M.BuildsStates)
    (hok : ∀ i, M.NodeOk genesis (c.procs i).node)
    (hgrows : ∀ i, Outgrows (c.procs i).node (c'.procs i).node)
    (h : M.FewUntrusted genesis cfg c') : M.FewUntrusted genesis cfg c := by
  intro i height s hs p hp
  have hle : height ≤ (c.procs i).node.storage.shared.db.highestHeight := by
    rcases Nat.eq_zero_or_pos height with rfl | hpos
    · exact Nat.zero_le _
    · obtain ⟨blk, hblk, -, -⟩ := stateAt_ok hpos hs
      exact (((hok i).shared.chain.wellFormed hB).block_le hblk).2
  rw [← stateAt_isPrefix (hgrows i).db hle] at hs
  exact h i height s hs p fun pubkey hpubkey => (hp pubkey hpubkey).mono hgrows

theorem StakesTold.back (hgrows : ∀ i, Outgrows (c.procs i).node (c'.procs i).node)
    (h : M.StakesTold genesis c') : M.StakesTold genesis c := by
  intro i j height hi hj
  rw [← getStakeset_isPrefix (hgrows i).db hi, ← getStakeset_isPrefix (hgrows j).db hj]
  exact h i j height (Nat.le_trans hi (hgrows i).db.le) (Nat.le_trans hj (hgrows j).db.le)

/-- A step moves one node, or none. -/
theorem exec_outgrows [DecidableEq ι] (hB : M.BuildsStates)
    (hok : ∀ i, M.NodeOk genesis (c.procs i).node)
    {label : (ι × ActorEvent Sealed) ⊕ Message}
    (h : (M.stakers genesis cfg).exec c label = some c') :
    (∀ i, Outgrows (c.procs i).node (c'.procs i).node) ∧
      (c'.procs = c.procs ∨ ∃ i, ∀ j, j ≠ i → c'.procs j = c.procs j) := by
  rcases label with ⟨i, e⟩ | d
  · obtain ⟨t', a', hstep, rfl⟩ := Procs.exec_proc.mp h
    refine ⟨fun j => ?_, Or.inr ⟨i, fun j hj => Function.update_of_ne hj _ _⟩⟩
    show Outgrows (c.procs j).node (Function.update c.procs i a' j).node
    by_cases hj : j = i
    · subst hj
      rw [Function.update_self]
      exact (actorStep_cases hstep).outgrows hB (hok j)
    · rw [Function.update_of_ne hj]
      exact Outgrows.refl hB (hok j)
  · obtain ⟨t', -, rfl⟩ := Procs.exec_env.mp h
    exact ⟨fun j => Outgrows.refl hB (hok j), Or.inl rfl⟩

end Steps

section Log

variable [DecidableEq ι] {c c' : Procs.Config ι (Traffic ι) (StakerActor Sealed Unsealed)}

/-- What every staker has of the log. -/
def storedHeaders (c : Procs.Config ι (Traffic ι) (StakerActor Sealed Unsealed)) (i : ι) :
    List Header :=
  (c.procs i).node.storage.shared.db.headers

/-- A step makes the headers of one staker more, at most. -/
theorem exec_storedHeaders (hB : M.BuildsStates) (hok : ∀ i, M.NodeOk genesis (c.procs i).node)
    (hok' : ∀ i, M.NodeOk genesis (c'.procs i).node) {label : (ι × ActorEvent Sealed) ⊕ Message}
    (h : (M.stakers genesis cfg).exec c label = some c') :
    storedHeaders c' = storedHeaders c ∨ ∃ i, storedHeaders c i <+: storedHeaders c' i ∧
      ∀ j, j ≠ i → storedHeaders c' j = storedHeaders c j := by
  obtain ⟨hgrows, hmoved⟩ := exec_outgrows hB hok h
  rcases hmoved with hsame | ⟨i, hothers⟩
  · left
    funext i
    unfold storedHeaders
    rw [hsame]
  · refine Or.inr ⟨i, ?_, fun j hj => ?_⟩
    · exact headers_isPrefix ((hok i).shared.chain.wellFormed hB)
        ((hok' i).shared.chain.wellFormed hB) (hgrows i).db
    · unfold storedHeaders
      rw [hothers j hj]

omit [DecidableEq ι] in
/-- Stakers that agree have prefixes of each other's headers. -/
theorem storedHeaders_comparable (hB : M.BuildsStates)
    (hok : ∀ i, M.NodeOk genesis (c.procs i).node)
    (hagree : ∀ i j h {blk₁ blk₂}, (c.procs i).node.storage.shared.db.block? h = some blk₁ →
      (c.procs j).node.storage.shared.db.block? h = some blk₂ → blk₁.header = blk₂.header)
    (i j : ι) :
    storedHeaders c i <+: storedHeaders c j ∨ storedHeaders c j <+: storedHeaders c i := by
  have hwf := fun i => (hok i).shared.chain.wellFormed hB
  rcases Nat.le_total (c.procs i).node.storage.shared.db.highestHeight
    (c.procs j).node.storage.shared.db.highestHeight with hle | hle
  · exact Or.inl (headers_isPrefix_of_same (hwf i) (hwf j) hle (hagree i j))
  · exact Or.inr (headers_isPrefix_of_same (hwf j) (hwf i) hle (hagree j i))

/-- **The stakers are one log.** In every run of a network of stakers in which nobody forges a
signature of a staker and the stake ahead is harmless in each check that accepts a block, if at its
end few stakes are untrusted, the headers that the stakers store are read off and appended to one
log: the states of the network show states of the log, and the run between them is one of the log. -/
theorem stakers_refine_log (hM : M.EnumeratesStakes) (hB : M.BuildsStates) (hC : M.ChecksHeader)
    (hsigns : M.SignsHeaders cfg headers)
    (hc : ((M.stakers genesis cfg).lts.guard (M.Sound cfg headers)).Reachable c)
    (hrun : ((M.stakers genesis cfg).lts.guard (M.Sound cfg headers)).Reaches c c')
    (hfew : M.FewUntrusted genesis cfg c') (hstakes : M.StakesTold genesis c') :
    ∃ r r' : SharedLog ι Header, SharedLog.lts.Reachable r ∧ SharedLog.lts.Reaches r r' ∧
      (∀ i, r.seen i = storedHeaders c i) ∧ ∀ i, r'.seen i = storedHeaders c' i := by
  have hactors : ∀ {c}, ((M.stakers genesis cfg).lts.guard (M.Sound cfg headers)).Reachable c →
      ∀ i, M.ActorOk genesis cfg headers c.shared i (c.procs i) :=
    fun hc => ((stakers_outline hB hC hsigns).reachable hc).2
  have hnodes : ∀ {c}, ((M.stakers genesis cfg).lts.guard (M.Sound cfg headers)).Reachable c →
      ∀ i, M.NodeOk genesis (c.procs i).node :=
    fun hc i => (hactors hc i).node
  obtain ⟨r, r', hr, hr', hshows, hshows'⟩ := SharedLog.implements storedHeaders
    (fun c => M.FewUntrusted genesis cfg c ∧ M.StakesTold genesis c)
    (by
      -- fresh databases
      rintro c ⟨-, hprocs⟩ i
      unfold storedHeaders
      rw [hprocs]
      exact headers_opened)
    (fun c label c' hc hstep =>
      exec_storedHeaders hB (hnodes hc) (hnodes (hc.tail hstep)) hstep.2)
    (by
      rintro c label c' hc ⟨-, hexec⟩ ⟨hfew, hstakes⟩
      obtain ⟨hgrows, -⟩ := exec_outgrows hB (hnodes hc) hexec
      exact ⟨hfew.back hB (hnodes hc) hgrows, hstakes.back hgrows⟩)
    (fun c hc ⟨hfew, hstakes⟩ => storedHeaders_comparable hB (hnodes hc)
      (header_eq_of_few hB hsigns (hactors hc) (stakers_quorumStored hM hB hc) hfew hstakes))
    hc hrun ⟨hfew, hstakes⟩
  exact ⟨r, r', hr, hr', hshows.seen, hshows'.seen⟩

end Log

/-- Nothing is stored at first, and in the end the first two stakers have one header. -/
theorem stakers_refine_log_first :
    ∃ r r' : SharedLog (Fin 3) Header, SharedLog.lts.Reaches r r' ∧
      r.seen 0 = [] ∧ r'.seen 0 = [(Ledger.firstBlock 1).header] ∧
      r'.seen 1 = [(Ledger.firstBlock 1).header] ∧ r'.seen 2 = [] := by
  have hstart : ((ledger.stakers Ledger.threeStakers Ledger.stakerOf).lts.guard
      (ledger.Sound Ledger.stakerOf {(Ledger.firstBlock 1).header})).Reachable Ledger.netStart :=
    Lts.Reachable.init ⟨rfl, rfl⟩
  obtain ⟨r, r', -, hreaches, hseen, hseen'⟩ := stakers_refine_log ledger_enumerates ledger_builds
    ledger_checks (Ledger.signsHeaders_single _) hstart
    Ledger.agreeing_reaches Ledger.agreeing_few Ledger.agreeing_told
  refine ⟨r, r', hreaches, ?_, ?_, ?_, ?_⟩
  · rw [hseen]
    decide
  · rw [hseen']
    with_unfolding_all decide
  · rw [hseen']
    with_unfolding_all decide
  · rw [hseen']
    with_unfolding_all decide

end Melstf

end Melnode
