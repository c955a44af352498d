import Melnode.Staker.Invariant

/-!
# What is pruned of the gathered signatures

A round for the next height `h` removes the one entry of `sig_gather` at `h - 10`. An entry at `g` is
made by the round that decides a block of height `g`, and only a round for `g + 10` removes it: if
block sync carries the chain past `g + 9` between two rounds, it stays for ever. `sigs_pruned_iff` is
the exact condition on the heights of the rounds and of the decisions.
-/

namespace Melnode

open Lib

namespace Melstf

variable {Sealed Unsealed : Type}

/-! ## The rounds of a run -/

section Rounds

variable (M : Melstf Sealed Unsealed) (genesis : GenesisConfig) (cfg : StakerConfig)

/-- The next height of the round a step begins, once it has pruned. -/
def roundBegun (n : Node Sealed Unsealed) : NodeEvent Sealed → Option Nat
  | .staker .wait =>
    match n.round with
    | .reading (.done baseState) => some (M.nextHeight baseState)
    | _ => none
  | _ => none

/-- The next heights of the rounds of a run, in this order. -/
def roundHeights (n : Node Sealed Unsealed) (events : List (NodeEvent Sealed)) : List Nat :=
  Lts.observe (M.nodeStep genesis cfg) M.roundBegun n events

/-- The round, or the one that is being prepared, is for `x` or above. -/
def AtLeast (x : Nat) (db : Tables) : Round Sealed → Prop
  | .listening => False
  | .reading .start => x ≤ db.highestHeight + 1
  | .reading (.height h) => x ≤ h + 1
  | .reading (.block h _) => x ≤ h + 1
  | .reading (.done s) => x ≤ M.nextHeight s
  | .waiting baseState => x ≤ M.nextHeight baseState
  | .mismatch baseState => x ≤ M.nextHeight baseState
  | .deciding baseState _ => x ≤ M.nextHeight baseState
  | .gathering baseState _ => x ≤ M.nextHeight baseState
  | .applying baseState _ _ => x ≤ M.nextHeight baseState

/-- The round is on record, and so is its decision once there is one. -/
def OnRecord (heights : List Nat) (signed : List (Nat × HashVal)) : Round Sealed → Prop
  | .waiting baseState => M.nextHeight baseState ∈ heights
  | .deciding baseState _ => M.nextHeight baseState ∈ heights
  | .gathering baseState _ => ∃ hash, (M.nextHeight baseState, hash) ∈ signed
  | _ => True

/-- The entries of `sig_gather` are those of decisions that no round has pruned. -/
structure SigsOf (n : Node Sealed Unsealed) (heights : List Nat) : Prop where
  keys : ∀ k, k ∈ n.sigGather ↔ k + 10 ∉ heights ∧ ∃ hash, (k, hash) ∈ n.signed
  signed : ∀ {k : Nat} {hash : HashVal}, (k, hash) ∈ n.signed → k ∈ heights
  pos : ∀ x ∈ heights, 0 < x
  ahead : ∀ x ∈ heights, M.AtLeast x n.storage.shared.db n.round
  here : M.OnRecord heights n.signed n.round

/-- No entry is at or below `nextHeight - 10`, and there are no more than ten. -/
structure OldSigsGone (sigGather : Table Nat ConsensusProof) (nextHeight : Nat) : Prop where
  none_old : ∀ k ∈ sigGather, nextHeight < k + 10
  few : sigGather.size ≤ 10

end Rounds

variable {M : Melstf Sealed Unsealed} {genesis : GenesisConfig} {cfg : StakerConfig}
  {n n' : Node Sealed Unsealed} {heights : List Nat}

/-! ## Heights do not fall -/

section Ahead

variable {db db' : Tables} {x : Nat}

theorem AtLeast.grows {round : Round Sealed} (h : M.AtLeast x db round) (hG : db.IsPrefix db') :
    M.AtLeast x db' round := by
  cases round with
  | reading r =>
    cases r with
    | start => exact h.trans (Nat.add_le_add_right hG.le 1)
    | _ => exact h
  | _ => exact h

/-- The base state of a round is one of the stored states. -/
theorem nextHeight_le (hB : M.BuildsStates) (hwf : M.WellFormed genesis db) {s : Sealed}
    (hs : M.ReadingOk genesis db (.done s)) : M.nextHeight s ≤ db.highestHeight + 1 := by
  obtain ⟨k, hk, hstate⟩ := hs
  unfold nextHeight
  rw [hwf.stateAt_height hB hstate]
  omega

/-- A round that ends is followed by one for its height or above. -/
theorem AtLeast.restart (hB : M.BuildsStates) (hwf : M.WellFormed genesis db) {round : Round Sealed}
    (hok : M.RoundOk genesis db round) (h : M.AtLeast x db round) : x ≤ db.highestHeight + 1 := by
  cases round with
  | listening => exact h.elim
  | reading r =>
    cases r with
    | start => exact h
    | height k => exact h.trans (Nat.add_le_add_right hok 1)
    | block k blk => exact h.trans (Nat.add_le_add_right hok.2.1 1)
    | done s => exact h.trans (nextHeight_le hB hwf hok)
  | gathering baseState decision => exact h.trans (nextHeight_le hB hwf hok.1)
  | applying baseState decision i => exact h.trans (nextHeight_le hB hwf hok.1)
  | _ => exact h.trans (nextHeight_le hB hwf hok)

/-- A read keeps the height. -/
theorem ReadStep.atLeast (hB : M.BuildsStates) {sh sh' : Shared Unsealed} {r r' : Reading Sealed}
    (hwf : M.WellFormed genesis sh.db) (hok : M.ReadingOk genesis sh.db r)
    (h : M.AtLeast x sh.db (.reading r)) (hstep : M.ReadStep genesis sh r sh' r') :
    M.AtLeast x sh'.db (.reading r') := by
  cases hstep with
  | genesis =>
    show x ≤ M.nextHeight (M.genesisState genesis)
    unfold nextHeight
    rw [hB.genesis_height]
    exact h
  | @rebuilt k blk s hs =>
    obtain ⟨-, -, hblk⟩ := hok
    unfold rebuildState at hs
    split at hs
    · cases hs
      show x ≤ M.nextHeight (M.fromBlock blk (M.getStakeset genesis sh.db k))
      unfold nextHeight
      rw [hB.header_fromBlock, hwf.block_height hblk]
      exact h
    · cases hs
  | _ => exact h

end Ahead

/-! ## One step -/

section Steps

/-- A step that touches no signatures. -/
theorem SigsOf.move (h : M.SigsOf n heights) (hgather : n'.sigGather = n.sigGather)
    (hsigned : n'.signed = n.signed)
    (hahead : ∀ x, M.AtLeast x n.storage.shared.db n.round →
      M.AtLeast x n'.storage.shared.db n'.round)
    (hhere : M.OnRecord heights n.signed n'.round) : M.SigsOf n' heights := by
  refine ⟨?_, ?_, h.pos, fun x hx => hahead x (h.ahead x hx), ?_⟩
  · rw [hgather, hsigned]
    exact h.keys
  · rw [hsigned]
    exact h.signed
  · rw [hsigned]
    exact hhere

/-- The pruning of a round. -/
theorem SigsOf.wait (h : M.SigsOf n heights) {baseState : Sealed}
    (hround : n.round = .reading (.done baseState)) :
    M.SigsOf { n with
      round := .waiting baseState
      sigGather := pruneSigs n.sigGather (M.nextHeight baseState) }
        (heights ++ [M.nextHeight baseState]) := by
  have hpos : 0 < M.nextHeight baseState := Nat.succ_pos _
  refine ⟨?_, ?_, ?_, ?_, List.mem_append_right _ (List.mem_singleton_self _)⟩
  · intro k
    have hkey : k ∈ pruneSigs n.sigGather (M.nextHeight baseState) ↔
        k ∈ n.sigGather ∧ k + 10 ≠ M.nextHeight baseState := by
      unfold pruneSigs
      split
      · rw [Std.ExtTreeMap.mem_erase]
        simp only [ne_eq, Nat.compare_eq_eq]
        constructor
        · rintro ⟨hne, hk⟩
          exact ⟨hk, by omega⟩
        · rintro ⟨hk, hne⟩
          exact ⟨by omega, hk⟩
      · refine ⟨fun hk => ⟨hk, ?_⟩, And.left⟩
        -- below ten there is no height to prune
        obtain ⟨-, hash, hsigned⟩ := (h.keys k).mp hk
        have := h.pos k (h.signed hsigned)
        omega
    show k ∈ pruneSigs n.sigGather (M.nextHeight baseState) ↔ _
    rw [hkey, h.keys k]
    simp only [List.mem_append, List.mem_singleton, not_or]
    constructor
    · rintro ⟨⟨hfree, hsigned⟩, hne⟩
      exact ⟨⟨hfree, hne⟩, hsigned⟩
    · rintro ⟨⟨hfree, hne⟩, hsigned⟩
      exact ⟨⟨hfree, hsigned⟩, hne⟩
  · intro k hash hk
    exact List.mem_append_left _ (h.signed hk)
  · intro x hx
    rcases List.mem_append.mp hx with hx | hx
    · exact h.pos x hx
    · rw [List.mem_singleton.mp hx]
      exact hpos
  · intro x hx
    show x ≤ M.nextHeight baseState
    rcases List.mem_append.mp hx with hx | hx
    · have hahead := h.ahead x hx
      rw [hround] at hahead
      exact hahead
    · exact (List.mem_singleton.mp hx).le

/-- An entry made at the height of the round that is on. -/
theorem SigsOf.insert (h : M.SigsOf n heights) {g : Nat} {hash : HashVal} {entry : ConsensusProof}
    {round : Round Sealed} {signed : List (Nat × HashVal)} (hg : g ∈ heights)
    (hlast : ∀ x ∈ heights, x ≤ g) (hsub : signed ⊆ (g, hash) :: n.signed)
    (hsup : n.signed ⊆ signed) (hnew : ∃ hash, (g, hash) ∈ signed)
    (hahead : ∀ x ∈ heights, M.AtLeast x n.storage.shared.db round)
    (hhere : M.OnRecord heights signed round) :
    M.SigsOf { n with round := round, sigGather := n.sigGather.insert g entry, signed := signed }
      heights := by
  have hsigned : ∀ {k : Nat} {hash' : HashVal}, (k, hash') ∈ signed → k = g ∨ (k, hash') ∈ n.signed := by
    intro k hash' hk
    rcases List.mem_cons.mp (hsub hk) with heq | hk
    · cases heq
      exact Or.inl rfl
    · exact Or.inr hk
  refine ⟨?_, ?_, h.pos, hahead, hhere⟩
  · intro k
    show k ∈ n.sigGather.insert g entry ↔ _
    rw [Std.ExtTreeMap.mem_insert, h.keys k, Nat.compare_eq_eq]
    constructor
    · rintro (rfl | ⟨hfree, hash', hk⟩)
      · refine ⟨fun hmem => ?_, hnew⟩
        have := hlast _ hmem
        omega
      · exact ⟨hfree, hash', hsup hk⟩
    · rintro ⟨hfree, hash', hk⟩
      rcases hsigned hk with rfl | hk
      · exact Or.inl rfl
      · exact Or.inr ⟨hfree, hash', hk⟩
  · intro k hash' hk
    rcases hsigned hk with rfl | hk
    · exact hg
    · exact h.signed hk

/-- Only `wait` begins a round. -/
theorem wait_cases (h : M.stakerStep genesis cfg .wait n = some n') :
    ∃ baseState, n.round = .reading (.done baseState) ∧
      n' = { n with
        round := .waiting baseState
        sigGather := pruneSigs n.sigGather (M.nextHeight baseState) } := by
  unfold stakerStep at h
  dsimp only at h
  split at h
  · cases h
  · generalize hround : n.round = round at h
    match round, h with
    | .reading (.done baseState), rfl => exact ⟨baseState, rfl, rfl⟩

/-- **A step of the staker that begins no round.** -/
theorem StakerStep.sigs (hB : M.BuildsStates) (hC : M.ChecksHeader) (hok : M.NodeOk genesis n)
    {e : StakerEvent} (hstep : M.StakerStep genesis cfg n e n') (he : e ≠ .wait)
    (hG : n.storage.shared.db.IsPrefix n'.storage.shared.db) (h : M.SigsOf n heights) :
    M.SigsOf n' heights := by
  have hwf := hok.shared.chain.wellFormed hB
  have hround := hok.round
  have hahead := h.ahead
  have hhere := h.here
  -- the round ends
  have hrestart : ∀ x, M.AtLeast x n.storage.shared.db n.round →
      M.AtLeast x n'.storage.shared.db (.reading .start) :=
    fun x hx => (hx.restart hB hwf hround).trans (Nat.add_le_add_right hG.le 1)
  cases hstep with
  | listen ok heq =>
    -- nothing has happened yet
    rw [heq] at hahead
    obtain rfl : heights = [] := List.eq_nil_iff_forall_not_mem.mpr fun x hx => hahead x hx
    refine ⟨fun k => ?_, h.signed, h.pos, fun x hx => absurd hx List.not_mem_nil, ?_⟩
    · simp only [Std.ExtTreeMap.not_mem_empty, false_iff, not_and]
      rintro - ⟨hash, hk⟩
      exact List.not_mem_nil (h.signed hk)
    · cases ok <;> trivial
  | read _ heq hr =>
    refine h.move rfl rfl (fun x hx => ?_) trivial
    rw [heq] at hx hround
    exact hr.atLeast hB hwf hround hx
  | wait => exact absurd rfl he
  | mismatch heq _ =>
    refine h.move rfl rfl (fun x hx => ?_) trivial
    rw [heq] at hx
    exact hx
  | propose heq _ =>
    rw [heq] at hhere
    refine h.move rfl rfl (fun x hx => ?_) hhere
    rw [heq] at hx
    exact hx
  | rebase => exact h.move rfl rfl hrestart trivial
  | @decide baseState proposal decision heq hverify =>
    rw [heq] at hahead hhere
    obtain ⟨s, hs⟩ := verifyProposal_iff.mp hverify
    have hheight : decision.header.height = M.nextHeight baseState := hC.height_eq hs
    rw [hheight]
    exact h.insert hhere hahead (List.Subset.refl _) (List.subset_cons_self _ _)
      ⟨_, List.mem_cons_self⟩ hahead ⟨_, List.mem_cons_self⟩
  | @merge baseState decision reply heq =>
    have hrecord := hhere
    rw [heq] at hahead hhere
    obtain ⟨hash, hsigned⟩ := hhere
    refine h.insert (h.signed hsigned) hahead (List.subset_cons_self (M.nextHeight baseState, hash) _)
      (List.Subset.refl _) ⟨hash, hsigned⟩ h.ahead hrecord
  | @submit baseState decision _ i _ heq _ hexec =>
    refine h.move rfl rfl (fun x hx => ?_) trivial
    rw [heq] at hx
    have hround : M.AtLeast x n.storage.shared.db (.applying baseState decision i) := hx
    exact hround.grows hG
  | finishOk => exact h.move rfl rfl hrestart trivial
  | finishErr => exact h.move rfl rfl hrestart trivial
  | skip => exact h.move rfl rfl hrestart trivial
  | skipCall => exact h.move rfl rfl hrestart trivial
  | crash e => exact h.move rfl rfl (fun _ hx => hx) hhere

end Steps

/-! ## Every run -/

section Runs

variable {n₀ : Node Sealed Unsealed} {events : List (NodeEvent Sealed)}

/-- **The entries of a run**: at every moment `sig_gather` holds the heights that were decided and
that no round has pruned. -/
theorem run_sigsOf (hB : M.BuildsStates) (hC : M.ChecksHeader) (hopened : M.NodeOpened genesis n₀)
    (hrun : Lts.run (M.nodeStep genesis cfg) n₀ events = some n) :
    M.SigsOf n (M.roundHeights genesis cfg n₀ events) := by
  refine Lts.run_induction (I := fun past n => M.SigsOf n (M.roundHeights genesis cfg n₀ past))
    ?_ ?_ hrun
  · refine ⟨fun k => ?_, ?_, ?_, ?_, ?_⟩
    · rw [hopened.sigGather, hopened.signed]
      simp
    · intro k hash hk
      rw [hopened.signed] at hk
      cases hk
    · exact fun x hx => absurd hx List.not_mem_nil
    · exact fun x hx => absurd hx List.not_mem_nil
    · rw [hopened.round]
      trivial
  · intro past t e t' hpast hsigs hstep
    have ht : (M.node genesis cfg).Reachable t := ⟨n₀, hopened, Lts.reaches_of_run hpast⟩
    have hok := node_reachable hB ht
    have hG := nodeStep_isPrefix hB hok hstep
    unfold roundHeights
    rw [Lts.observe_snoc hpast]
    cases e with
    | storage label =>
      obtain ⟨-, storage, hexec, rfl⟩ := nodeStep_storage_eq hstep
      simp only [roundBegun, Option.toList_none, List.append_nil]
      exact hsigs.move rfl rfl (fun x hx => hx.grows hG) hsigs.here
    | staker e =>
      by_cases he : e = .wait
      · subst he
        obtain ⟨baseState, hround, rfl⟩ := wait_cases hstep
        simp only [roundBegun, hround, Option.toList_some]
        exact hsigs.wait hround
      · have hnone : M.roundBegun t (.staker e) = none := by
          cases e with
          | wait => exact absurd rfl he
          | _ => rfl
        rw [hnone, Option.toList_none, List.append_nil]
        exact (stakerStep_cases hstep).2.sigs hB hC hok he hG hsigs

/-- **Old signature sets, exactly**: in every run, however the heights of the rounds grow, a round for
`h` has pruned all entries up to `h - 10`, and keeps at most ten, if and only if every height `g` up
to `h - 10` that was decided has had its round for `g + 10`. -/
theorem sigs_pruned_iff (hB : M.BuildsStates) (hC : M.ChecksHeader)
    (hopened : M.NodeOpened genesis n₀)
    (hrun : Lts.run (M.nodeStep genesis cfg) n₀ events = some n) {baseState : Sealed}
    (hround : n.round = .waiting baseState) :
    OldSigsGone n.sigGather (M.nextHeight baseState) ↔
      ∀ g hash, (g, hash) ∈ n.signed → g + 10 ≤ M.nextHeight baseState →
        g + 10 ∈ M.roundHeights genesis cfg n₀ events := by
  have hsigs := run_sigsOf hB hC hopened hrun
  constructor
  · intro hgone g hash hsigned hold
    by_contra hfree
    have := hgone.none_old g ((hsigs.keys g).mpr ⟨hfree, hash, hsigned⟩)
    omega
  · intro hall
    have hnone : ∀ k ∈ n.sigGather, M.nextHeight baseState < k + 10 := by
      intro k hk
      obtain ⟨hfree, hash, hsigned⟩ := (hsigs.keys k).mp hk
      by_contra hold
      exact hfree (hall k hash hsigned (by omega))
    refine ⟨hnone, ?_⟩
    have hinterval : ∀ k ∈ n.sigGather,
        k ∈ Finset.Ioc (M.nextHeight baseState - 10) (M.nextHeight baseState) := by
      intro k hk
      obtain ⟨-, hash, hsigned⟩ := (hsigs.keys k).mp hk
      have hpos := hsigs.pos k (hsigs.signed hsigned)
      have hahead := hsigs.ahead k (hsigs.signed hsigned)
      rw [hround] at hahead
      have hnew := hnone k hk
      exact Finset.mem_Ioc.mpr ⟨by omega, hahead⟩
    refine (Table.size_le_card hinterval).trans ?_
    rw [Nat.card_Ioc]
    omega

end Runs

end Melstf

/-! ## A round past ten others -/

namespace Ledger

/-- The base state of a round that waits for its time. -/
def waiting? : Round Sealed → Option Sealed
  | .waiting baseState => some baseState
  | _ => none

theorem waiting?_eq_some {round : Round Sealed} {baseState : Sealed}
    (h : waiting? round = some baseState) : round = .waiting baseState := by
  cases round with
  | waiting s =>
    cases h
    rfl
  | _ => cases h

/-- Blocks without transactions, one on top of the other. -/
def emptyBlocks : Nat → Sealed → List Block
  | 0, _ => []
  | n + 1, s => blockOn s [] :: emptyBlocks n ((applyBlock s (blockOn s [])).toOption.getD s)

/-- Block sync commits that many of them on the genesis state. -/
def syncEmpty (n : Nat) : List (NodeEvent Sealed) :=
  ((emptyBlocks n (ledger.genesisState threeStakers)).zipIdx.flatMap fun (blk, h) =>
    Melstf.soloCall h h blk (proofBy [1, 2, 3] blk)).map .storage

/-- A round decides the first block, block sync commits `n` blocks, the round is skipped and the next
one begins. -/
def overtaken (n : Nat) : List (NodeEvent Sealed) :=
  readGenesis ++ [.staker .propose, .staker (.decide (blockOn (ledger.genesisState threeStakers) []))] ++
    syncEmpty n ++ [.staker .skip, .staker (.read false), .staker (.read false),
      .staker (.read false), .staker .wait]

/-- One block is committed meanwhile: the round for the second height keeps the one entry. -/
theorem sigs_pruned_iff_skipped :
    ∃ baseState, (nodeAfter (overtaken 1)).round = .waiting baseState ∧
      (Melstf.OldSigsGone (nodeAfter (overtaken 1)).sigGather (ledger.nextHeight baseState) ↔
        ∀ g hash, (g, hash) ∈ (nodeAfter (overtaken 1)).signed →
          g + 10 ≤ ledger.nextHeight baseState →
            g + 10 ∈ ledger.roundHeights threeStakers staker nodeStart (overtaken 1)) := by
  have hwaiting : (waiting? (nodeAfter (overtaken 1)).round).isSome := by decide +kernel
  obtain ⟨baseState, hbase⟩ := Option.isSome_iff_exists.mp hwaiting
  exact ⟨baseState, waiting?_eq_some hbase, Melstf.sigs_pruned_iff ledger_builds ledger_checks
    nodeStart_opened (nodeAfter_run (by decide +kernel)) (waiting?_eq_some hbase)⟩

/-- Eleven blocks are committed meanwhile: the round for height 12 prunes height 2, and the signatures
of height 1 stay. -/
theorem sigs_pruned_overtaken :
    (ledger.node threeStakers staker).Reachable (nodeAfter (overtaken 11)) ∧
      ∃ baseState, (nodeAfter (overtaken 11)).round = .waiting baseState ∧
        ledger.nextHeight baseState = 12 ∧ 1 ∈ (nodeAfter (overtaken 11)).sigGather ∧
        ¬Melstf.OldSigsGone (nodeAfter (overtaken 11)).sigGather (ledger.nextHeight baseState) := by
  have hwaiting : (waiting? (nodeAfter (overtaken 11)).round).any (fun baseState =>
      decide (ledger.nextHeight baseState = 12)) = true := by
    decide +kernel
  have hentry : 1 ∈ (nodeAfter (overtaken 11)).sigGather := by decide +kernel
  refine ⟨(Lts.Reachable.init nodeStart_opened).trans (nodeAfter_reaches (by decide +kernel)), ?_⟩
  cases hbase : waiting? (nodeAfter (overtaken 11)).round with
  | none =>
    rw [hbase] at hwaiting
    cases hwaiting
  | some baseState =>
    rw [hbase] at hwaiting
    have hnext : ledger.nextHeight baseState = 12 := of_decide_eq_true hwaiting
    refine ⟨baseState, waiting?_eq_some hbase, hnext, hentry, fun hgone => ?_⟩
    have := hgone.none_old 1 hentry
    omega

end Ledger

end Melnode
