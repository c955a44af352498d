import Melnode.Rpc.Caches

/-!
# Serving a batch ends

The loop of `get_lz4_blocks` has a branch that asks for the same height again: a block that is stored
without its proof. A block and its proof are committed together, and a read that comes later sees
both, so the branch is dead; every other round adds a block of at least one byte to a total that ends
the loop above the size limit. `batching` is the protocol of the handler with that count in what it
knows, kept through every interleaving of a swarm (`lz4Blocks_ends`).
-/

namespace Melnode

open Lib

/-- The height whose proof an operation reads. -/
def RpcOp.proofRow? {Tree ι : Type} : RpcOp Tree ι → Option Nat
  | .proofRow height => some height
  | _ => none

namespace NodeRpc

variable {Sealed Unsealed Tree ω ι : Type}

/-! ## The protocol -/

/-- What the handler of a batch knows: a height that is stored, the blocks it has read from the
database, how many proofs it has read and how many steps it has taken. -/
structure Batching where
  top : Nat
  fetched : List (Nat × Block)
  rounds : Nat
  steps : Nat

/-- No more steps than four for every round and the last one. -/
def maxSteps (sizeLimit : Nat) : Nat := 4 * (sizeLimit + 2)

/-- The operations of a batch up to the size limit. -/
def Batching.Allowed (sizeLimit : Nat) (g : Batching) : RpcOp Tree ι → Prop
  | .cachedBlock _ => True
  | .blockRow _ => True
  | .cacheBlock height blk => (height, blk) ∈ g.fetched
  | .proofRow height => 1 ≤ height ∧ height ≤ g.top ∧ g.rounds ≤ sizeLimit
  | .panic _ => True
  | _ => False

/-- What an answer tells. -/
def Batching.Learns (g : Batching) : (op : RpcOp Tree ι) → op.Res → Batching → Prop
  | .cachedBlock height, r, g' => g'.rounds = g.rounds ∧
    ∀ blk, (r : Option Block) = some blk → 1 ≤ height ∧ height ≤ g'.top
  | .blockRow height, r, g' => g'.rounds = g.rounds ∧
    ∀ blk, (r : Option Block) = some blk →
      1 ≤ height ∧ height ≤ g'.top ∧ (height, blk) ∈ g'.fetched
  | .cacheBlock _ _, _, g' => g'.rounds = g.rounds ∧ g.top ≤ g'.top
  | .proofRow _, r, g' => g'.rounds = g.rounds + 1 ∧ (r : Option ConsensusProof).isSome
  | _, _, _ => False

/-- **The protocol of a batch.** -/
def batching (sizeLimit : Nat) : Proto (RpcOp Tree ι) RpcOp.Res Batching where
  pre g op := g.steps < maxSteps sizeLimit ∧ g.rounds ≤ sizeLimit + 1 ∧ g.Allowed sizeLimit op
  post g op r g' := g'.steps = g.steps + 1 ∧ g.Learns op r g'

section Protocol

variable {N : NodeRpc Sealed Unsealed Tree ω} {sizeLimit : Nat} {α : Type}

/-- The rule of an operation. -/
theorem batching_op {o : RpcOp Tree ι} {f : o.Res → Rpc Tree ι α} {Q : α → Batching → Prop}
    {g : Batching} (hsteps : g.steps < maxSteps sizeLimit) (hrounds : g.rounds ≤ sizeLimit + 1)
    (hpre : g.Allowed sizeLimit o)
    (hpost : ∀ r g', g'.steps = g.steps + 1 → g.Learns o r g' → (f r).Obeys (batching sizeLimit) Q g') :
    (Rpc.op o >>= f).Obeys (batching sizeLimit) Q g := by
  refine Prog.Obeys.bind (Prog.obeys_perform (Q := fun r (g' : Batching) =>
    g'.steps = g.steps + 1 ∧ g.Learns o r g') ⟨hsteps, hrounds, hpre⟩ fun r g' h => h) ?_
  rintro r g' ⟨hcount, hlearns⟩
  exact hpost r g' hcount hlearns

/-- The rule of an addition that can overflow. -/
theorem batching_add64 {a b : Nat} {f : Nat → Rpc Tree ι α} {Q : α → Batching → Prop}
    {g : Batching} (hsteps : g.steps < maxSteps sizeLimit) (hrounds : g.rounds ≤ sizeLimit + 1)
    (hsum : (f (a + b)).Obeys (batching sizeLimit) Q g) :
    (Rpc.add64 a b >>= f).Obeys (batching sizeLimit) Q g := by
  unfold Rpc.add64
  split
  · exact hsum
  · exact ⟨⟨hsteps, hrounds, trivial⟩, fun r => r.elim⟩

/-- `get_block` takes three steps at most, and a block it finds is stored. -/
theorem getBlock_batching {height : Nat} {g : Batching} (hsteps : g.steps + 2 < maxSteps sizeLimit)
    (hrounds : g.rounds ≤ sizeLimit + 1) :
    (getBlock height : Rpc Tree ι (Option Block)).Obeys (batching sizeLimit)
      (fun r g' => g'.rounds = g.rounds ∧ g'.steps ≤ g.steps + 3 ∧
        ∀ blk, r = some blk → 1 ≤ height ∧ height ≤ g'.top) g := by
  refine batching_op (by omega) (by omega) trivial fun (cached : Option Block) g₁ hcount₁ hlearns₁ => ?_
  obtain ⟨hrounds₁, hstored₁⟩ := hlearns₁
  cases cached with
  | some val => exact ⟨hrounds₁, by omega, fun _ _ => hstored₁ val rfl⟩
  | none =>
    refine batching_op (by omega) (by omega) trivial fun (res : Option Block) g₂ hcount₂ hlearns₂ => ?_
    obtain ⟨hrounds₂, hstored₂⟩ := hlearns₂
    cases res with
    | none => exact ⟨hrounds₂.trans hrounds₁, by omega, fun _ h => nomatch h⟩
    | some block =>
      obtain ⟨h1, htop, hread⟩ := hstored₂ block rfl
      refine batching_op (by omega) (by omega) hread fun _ g₃ hcount₃ hlearns₃ => ?_
      obtain ⟨hrounds₃, htop₃⟩ := hlearns₃
      exact ⟨hrounds₃.trans (hrounds₂.trans hrounds₁), by omega, fun _ _ => ⟨h1, htop.trans htop₃⟩⟩

/-- **The loop.** The rounds so far are bounded by the total, and with the fuel they are the size
limit and two. -/
theorem batches_batching (hN : N.Lawful) :
    ∀ {fuel height totalCount : Nat} {accum : List Block} {proofAccum : List ConsensusProof}
      {g : Batching}, fuel + g.rounds = sizeLimit + 2 → g.rounds ≤ sizeLimit + 1 →
      g.rounds ≤ totalCount → g.steps ≤ 4 * g.rounds →
      (N.batches sizeLimit fuel height totalCount accum proofAccum : Rpc Tree ι _).Obeys
        (batching sizeLimit)
        (fun _ g' => g'.rounds ≤ sizeLimit + 1 ∧ g'.steps ≤ maxSteps sizeLimit) g := by
  intro fuel
  induction fuel with
  | zero =>
    intro height totalCount accum proofAccum g hfuel hrounds
    omega
  | succ fuel ih =>
    intro height totalCount accum proofAccum g hfuel hrounds htotal hsteps
    have hmax : maxSteps sizeLimit = 4 * sizeLimit + 8 := by
      unfold maxSteps
      omega
    unfold batches
    by_cases hroom : totalCount ≤ sizeLimit
    · rw [if_pos hroom]
      refine (getBlock_batching (by omega) (by omega)).bind ?_
      rintro block g₁ ⟨hrounds₁, hsteps₁, hstored⟩
      cases block with
      | none =>
        dsimp only
        split <;> exact ⟨by omega, by omega⟩
      | some block =>
        obtain ⟨h1, htop⟩ := hstored block rfl
        refine batching_op (by omega) (by omega) ⟨h1, htop, by omega⟩
          fun (proof : Option ConsensusProof) g₂ hcount₂ hlearns₂ => ?_
        obtain ⟨hrounds₂, hproof⟩ := hlearns₂
        cases proof with
        | none => cases hproof
        | some proof =>
          have hpos := hN.blockLen_pos block
          refine batching_add64 (by omega) (by omega) ?_
          refine batching_add64 (by omega) (by omega) ?_
          refine batching_add64 (by omega) (by omega) ?_
          exact ih (by omega) (by omega) (by omega) (by omega)
    · rw [if_neg hroom]
      exact ⟨by omega, by omega⟩

/-- The handler of a batch keeps to its protocol. -/
theorem body_batching (hN : N.Lawful) (height sizeLimit : Nat) :
    (N.body (.getLz4Blocks height sizeLimit) : Rpc Tree ι (Reply ω)).Obeys
      (batching (min sizeLimit 10000000))
      (fun _ g' => g'.rounds ≤ min sizeLimit 10000000 + 1 ∧
        g'.steps ≤ maxSteps (min sizeLimit 10000000)) ⟨0, [], 0, 0⟩ := by
  refine Prog.Obeys.map ?_
  refine (batches_batching hN (g := ⟨0, [], 0, 0⟩) rfl (Nat.zero_le _) (Nat.zero_le _)
    (Nat.zero_le _)).bind ?_
  rintro lists g' hbounds
  cases lists <;> exact hbounds

end Protocol

/-! ## In the swarm -/

section Swarm

variable (N : NodeRpc Sealed Unsealed Tree ω) [DecidableEq ι]

/-- The step is one of handler `t`. -/
def ownStep (t : ι × Nat) : N.Label ι → Bool
  | .inl (i, .step _) => decide (i = t)
  | _ => false

/-- The steps handler `t` takes. -/
def ownSteps (t : ι × Nat) (labels : List (N.Label ι)) : Nat := labels.countP (N.ownStep t)

/-- The height whose proof a step of handler `t` reads. -/
def readsProof (t : ι × Nat) (c : N.Config ι) (label : N.Label ι) : Option Nat :=
  if N.ownStep t label then (c.procs t).next?.bind fun next => next.2.proofRow? else none

/-- The heights whose proofs handler `t` reads in a run, in this order. -/
def proofReads (t : ι × Nat) (c : N.Config ι) (labels : List (N.Label ι)) : List Nat :=
  Lts.observe (N.swarm ι).procs.exec (N.readsProof t) c labels

variable {N}

theorem ownSteps_snoc (t : ι × Nat) (past : List (N.Label ι)) (label : N.Label ι) :
    N.ownSteps t (past ++ [label]) = N.ownSteps t past + if N.ownStep t label then 1 else 0 := by
  simp [ownSteps, List.countP_append, List.countP_singleton]

theorem proofReads_snoc {t : ι × Nat} {label : N.Label ι} {past : List (N.Label ι)}
    {c m : N.Config ι} (hrun : (N.swarm ι).procs.run c past = some m) :
    (N.proofReads t c (past ++ [label])).length =
      (N.proofReads t c past).length + (N.readsProof t m label).toList.length := by
  unfold proofReads
  rw [Lts.observe_snoc hrun, List.length_append]

/-- A block that was read stays read until the process ends. -/
theorem storageExec_fetched {node node' : RpcNode Sealed Unsealed Tree}
    {label : (Nat × CallEvent) ⊕ StorageEvent Sealed} (h : N.storageExec node label = some node')
    (hlabel : label ≠ .inr .reopen) :
    node.storage.shared.fetched ⊆ node'.storage.shared.fetched := by
  obtain ⟨storage, hstep, rfl⟩ := Option.map_eq_some_iff.mp h
  rcases label with ⟨i, e⟩ | d
  · obtain ⟨sh', call', hcall, rfl⟩ := Procs.exec_proc.mp hstep
    have hread : ∀ {sh sh' : Shared Unsealed} {r r' : Reading Sealed},
        N.melstf.ReadStep N.genesis sh r sh' r' → sh.fetched ⊆ sh'.fetched := by
      intro sh sh' r r' hr
      cases hr with
      | fetched => exact List.subset_cons_self _ _
      | _ => exact List.Subset.refl _
    have hcases := (Melstf.callStep_cases hcall).2
    generalize node.storage.procs i = call at hcases
    cases hcases with
    | readCheck _ hr => exact hread hr
    | readRebase _ hr => exact hread hr
    | _ => exact List.Subset.refl _
  · obtain ⟨sh', hstep', rfl⟩ := Procs.exec_env.mp hstep
    cases Melstf.storageStep_cases hstep' with
    | fetch => exact List.subset_cons_self _ _
    | reopen => exact absurd rfl hlabel
    | _ => exact List.Subset.refl _

omit [DecidableEq ι] in
theorem nodeExec_fetched {node node' : RpcNode Sealed Unsealed Tree} {e : Surroundings ι}
    {op : RpcOp Tree ι} {r : Option op.Res} (h : N.nodeExec e node op = some (node', r)) :
    node.storage.shared.fetched ⊆ node'.storage.shared.fetched := by
  cases op with
  | blockRow height =>
    simp only [nodeExec] at h
    split at h
    · split at h
      · obtain ⟨node₁, hstep, heq⟩ := Option.map_eq_some_iff.mp h
        cases heq
        exact storageExec_fetched hstep (by simp)
      · cases h
        exact List.Subset.refl _
    · cases h
  | cacheBlock height blk =>
    obtain ⟨node₁, hstep, heq⟩ := Option.map_eq_some_iff.mp h
    cases heq
    exact storageExec_fetched hstep (by simp)
  | applyTransaction tx =>
    obtain ⟨node₁, hstep, heq⟩ := Option.map_eq_some_iff.mp h
    have hsub := storageExec_fetched hstep (by simp)
    split at heq <;> cases heq <;> exact hsub
  | stakeset height =>
    simp only [nodeExec] at h
    split at h <;> cases h
    exact List.Subset.refl _
  | proofRow height =>
    simp only [nodeExec] at h
    split at h <;> cases h
    exact List.Subset.refl _
  | spin => cases h
  | _ =>
    cases h
    exact List.Subset.refl _

/-- **One step of the swarm** forgets no block that was read. -/
theorem swarm_step_fetched {c c' : N.Config ι} {label : N.Label ι}
    (hexec : (N.swarm ι).procs.exec c label = some c') (i : ι) :
    (c.shared.nodes i).storage.shared.fetched ⊆ (c'.shared.nodes i).storage.shared.fetched := by
  have hone : ∀ {j : ι} {node : RpcNode Sealed Unsealed Tree},
      (c.shared.nodes j).storage.shared.fetched ⊆ node.storage.shared.fetched →
      (c.shared.nodes i).storage.shared.fetched ⊆
        (Function.update c.shared.nodes j node i).storage.shared.fetched := by
    intro j node hsub
    exact nodes_update (P := fun i node =>
      (c.shared.nodes i).storage.shared.fetched ⊆ node.storage.shared.fetched)
        (fun _ => List.Subset.refl _) hsub i
  rcases label with ⟨t, e⟩ | d
  · rcases Threads.exec_thread hexec with hsame | ⟨ev, req, op, k, r, -, -, hans⟩
    · rw [hsame]
      exact List.Subset.refl _
    · obtain ⟨node, hnode, heq⟩ := exec_eq hans
      rw [heq, noted_nodes]
      exact hone (nodeExec_fetched hnode)
  · obtain ⟨s', hstep, rfl⟩ := Procs.exec_env.mp hexec
    have henv : N.env c.shared d = some s' := hstep
    cases d with
    | storage j label =>
      simp only [env] at henv
      split at henv
      · next hothers =>
        obtain ⟨node, hstorage, rfl⟩ := Option.map_eq_some_iff.mp henv
        have hsub : (c.shared.nodes j).storage.shared.fetched ⊆ node.storage.shared.fetched := by
          refine storageExec_fetched hstorage ?_
          rintro rfl
          cases hothers.2
        exact hone hsub
      · cases henv
    | _ =>
      cases henv
      exact hone (List.Subset.refl _)

/-! ## Every moment of a batch -/

section Node

variable {node node' : RpcNode Sealed Unsealed Tree} {sizeLimit : Nat} {g : Batching}

omit [DecidableEq ι] in
/-- A height up to a stored one has its proof. -/
theorem proof_isSome (hN : N.Lawful) (hok : N.NodeOk node) {height : Nat} (h1 : 1 ≤ height)
    (htop : height ≤ node.db.highestHeight) : (node.db.consensusProofs[height]?).isSome := by
  have hwf := (hok.chain hN.builds).wellFormed hN.builds
  obtain ⟨blk, hblk⟩ := hwf.block_isSome h1 htop
  obtain ⟨cproof, hproof⟩ := hwf.proof_of_block hblk
  rw [hproof]
  rfl

omit [DecidableEq ι] in
/-- What an answered operation tells. -/
theorem nodeExec_learns (hN : N.Lawful) (hok : N.NodeOk node) {e : Surroundings ι}
    {op : RpcOp Tree ι} {a : op.Res} (h : N.nodeExec e node op = some (node', some a))
    (htop : g.top ≤ node.db.highestHeight) (hpre : g.Allowed sizeLimit op) (rounds steps : Nat)
    (hrounds : rounds = g.rounds + op.proofRow?.toList.length) :
    g.Learns op a ⟨node'.db.highestHeight, node'.storage.shared.fetched, rounds, steps⟩ := by
  have hwf := (hok.chain hN.builds).wellFormed hN.builds
  have hdb := nodeExec_db hN.builds hok h
  cases op with
  | cachedBlock height =>
    cases h
    refine ⟨by simpa [RpcOp.proofRow?] using hrounds, fun blk hget => ?_⟩
    exact hwf.block_le ((hok.sharedOk hN.builds).cache hget)
  | blockRow height =>
    refine ⟨by simpa [RpcOp.proofRow?] using hrounds, ?_⟩
    rintro blk ⟨⟩
    have hstored : node.db.block? height = some blk := (nodeExec_answers hN.builds hok h).symm
    obtain ⟨h1, hle⟩ := hwf.block_le hstored
    refine ⟨h1, by rwa [hdb], ?_⟩
    simp only [nodeExec] at h
    split at h
    · rw [hstored] at h
      obtain ⟨node₁, hstep, heq⟩ := Option.map_eq_some_iff.mp h
      cases heq
      obtain ⟨storage, hexec, rfl⟩ := Option.map_eq_some_iff.mp hstep
      obtain ⟨sh', hfetch, rfl⟩ := Procs.exec_env.mp hexec
      have hfetch' : N.melstf.storageStep N.genesis (.fetch height) node.storage.shared = some sh' :=
        hfetch
      cases Melstf.storageStep_cases hfetch' with
      | fetch _ hblk =>
        have heq : blk = _ := Option.some.inj (hstored.symm.trans hblk)
        subst heq
        exact List.mem_cons_self
    · cases h
  | cacheBlock height blk => exact ⟨by simpa [RpcOp.proofRow?] using hrounds, by rwa [hdb]⟩
  | proofRow height =>
    obtain ⟨h1, hle, -⟩ := hpre
    have hsome := proof_isSome hN hok h1 (hle.trans htop)
    refine ⟨by simpa [RpcOp.proofRow?] using hrounds, ?_⟩
    rw [← show a = node.db.consensusProofs[height]? from nodeExec_answers hN.builds hok h] at hsome
    exact hsome
  | panic site => exact a.elim
  | _ => exact hpre.elim

omit [DecidableEq ι] in
/-- **No operation of a batch waits**, as long as the heights are ones SQLite can bind. -/
theorem nodeExec_enabled (hN : N.Lawful) (hok : N.NodeOk node) (e : Surroundings ι)
    {op : RpcOp Tree ι} (halive : node.alive = true) (htop : g.top ≤ node.db.highestHeight)
    (hfetched : g.fetched ⊆ node.storage.shared.fetched) (hpre : g.Allowed sizeLimit op)
    (hfit : ∀ height, op = .blockRow height → height ≤ maxSqlHeight) :
    ∃ res, N.nodeExec e node op = some res := by
  have hcrash : node.storage.shared.crashed = false := by
    simpa using (Bool.and_eq_true_iff.mp halive).2
  cases op with
  | cachedBlock height => exact ⟨_, rfl⟩
  | blockRow height =>
    simp only [nodeExec, hfit height rfl, if_true]
    cases hblk : node.db.block? height with
    | none => exact ⟨_, rfl⟩
    | some blk =>
      have hblk' : node.storage.shared.db.block? height = some blk := hblk
      simp [storageExec, Procs.exec, Melstf.storage, Melstf.storageStep, hcrash, hblk']
  | cacheBlock height blk =>
    have hmem : (height, blk) ∈ node.storage.shared.fetched := hfetched hpre
    simp [nodeExec, storageExec, Procs.exec, Melstf.storage, Melstf.storageStep, hcrash, hmem]
  | proofRow height =>
    have hle := (hpre.2.1.trans htop).trans ((hok.chain hN.builds).highestHeight_le_max hN.builds)
    simp [nodeExec, hle]
  | panic site => exact ⟨_, rfl⟩
  | _ => exact hpre.elim

end Node

/-- What the handler knows, of the run since it was called. -/
def Batching.Holds (N : NodeRpc Sealed Unsealed Tree ω) (t : ι × Nat) (c₁ : N.Config ι)
    (past : List (N.Label ι)) (c : N.Config ι) (g : Batching) : Prop :=
  g.top ≤ (c.shared.nodes t.1).db.highestHeight ∧
    g.fetched ⊆ (c.shared.nodes t.1).storage.shared.fetched ∧
    g.rounds = (N.proofReads t c₁ past).length ∧ g.steps = N.ownSteps t past

section Runs

variable {c c₁ c' : N.Config ι} {t : ι × Nat} {height sizeLimit : Nat} {labels : List (N.Label ι)}

/-- Steps of others take nothing from what the handler knows. -/
theorem Batching.Holds.other (hN : N.Lawful) (hc₁ : (N.swarm ι).procs.lts.Reachable c₁)
    {past : List (N.Label ι)} {label : N.Label ι} (hpast : (N.swarm ι).procs.run c₁ past = some c)
    (hexec : (N.swarm ι).procs.exec c label = some c') (hown : N.ownStep t label = false)
    {g : Batching} (h : g.Holds N t c₁ past c) : g.Holds N t c₁ (past ++ [label]) c' := by
  obtain ⟨htop, hfetched, hrounds, hsteps⟩ := h
  have hok := swarm_nodeOk hN (hc₁.trans (Procs.reaches_of_run hpast))
  refine ⟨htop.trans (swarm_step_isPrefix hN hok hexec t.1).le,
    List.Subset.trans hfetched (swarm_step_fetched hexec t.1), ?_, ?_⟩
  · rw [proofReads_snoc hpast, readsProof, hown]
    exact hrounds
  · rw [ownSteps_snoc, hown]
    exact hsteps

/-- A step of the handler. -/
theorem Batching.Holds.own (hN : N.Lawful) (hc₁ : (N.swarm ι).procs.lts.Reachable c₁)
    {past : List (N.Label ι)} {e : Surroundings ι} {req : Request} {op : RpcOp Tree ι}
    {k : op.Res → Rpc Tree ι (Reply ω)} {s' : Network Sealed Unsealed Tree ι} {r : op.Res}
    {g : Batching} (hpast : (N.swarm ι).procs.run c₁ past = some c)
    (hthread : c.procs t = .running req (.call op k)) (hans : N.exec t e op c.shared = some (s', some r))
    (hpre : g.Allowed sizeLimit op) (h : g.Holds N t c₁ past c) :
    ∃ g', g'.steps = g.steps + 1 ∧ g.Learns op r g' ∧
      g'.Holds N t c₁ (past ++ [.inl (t, .step e)])
        ⟨s', Function.update c.procs t (.running req (k r))⟩ := by
  obtain ⟨htop, hfetched, hrounds, hsteps⟩ := h
  have hok := swarm_nodeOk hN (hc₁.trans (Procs.reaches_of_run hpast)) t.1
  obtain ⟨node, hnode, rfl⟩ := exec_eq hans
  have hreads : N.readsProof t c (.inl (t, .step e)) = op.proofRow? := by
    simp [readsProof, ownStep, hthread, Thread.next?]
  have hlearns := nodeExec_learns hN hok hnode htop hpre _ (g.steps + 1) rfl
  refine ⟨_, rfl, hlearns, ?_⟩
  unfold Batching.Holds
  rw [proofReads_snoc hpast, ownSteps_snoc, noted_nodes, hreads]
  simp [ownStep, hrounds, hsteps]

/-- At every moment of a batch: what the handler knows, and that it has kept to its protocol. -/
theorem batch_moments (hN : N.Lawful) (hc : (N.swarm ι).procs.lts.Reachable c)
    (hcall : (N.swarm ι).procs.exec c (.inl (t, .call (.getLz4Blocks height sizeLimit))) = some c₁)
    (hrun : (N.swarm ι).procs.run c₁ labels = some c') :
    ((N.proofReads t c₁ labels).length ≤ min sizeLimit 10000000 + 1 ∧
      N.ownSteps t labels ≤ maxSteps (min sizeLimit 10000000)) ∧
      ∀ req op, (c'.procs t).next? = some (req, op) →
        ∃ g : Batching, g.Allowed (min sizeLimit 10000000) op ∧ g.Holds N t c₁ labels c' := by
  have hc₁ : (N.swarm ι).procs.lts.Reachable c₁ := hc.tail hcall
  have hmoment := Threads.run_moments (Batching.Holds N t c₁)
    (fun past _ => (N.proofReads t c₁ past).length ≤ min sizeLimit 10000000 + 1 ∧
      N.ownSteps t past ≤ maxSteps (min sizeLimit 10000000))
    (Threads.exec_call hcall) ⟨Nat.zero_le _, List.nil_subset _, rfl, rfl⟩
    (body_batching hN height sizeLimit) ?_ ?_ ?_ hrun
  · rcases hmoment with ⟨p, g, hp, hg, hobeys⟩ | ⟨hstopped, hbounds⟩
    · cases p with
      | ret a =>
        refine ⟨?_, ?_⟩
        · rw [← hg.2.2.1, ← hg.2.2.2]
          exact hobeys
        · intro req op hnext
          rw [hp] at hnext
          cases hnext
      | call op k =>
        obtain ⟨⟨hsteps, hrounds, hallowed⟩, -⟩ := hobeys
        refine ⟨?_, ?_⟩
        · rw [← hg.2.2.1, ← hg.2.2.2]
          exact ⟨hrounds, hsteps.le⟩
        · intro req op' hnext
          rw [hp] at hnext
          cases hnext
          exact ⟨g, hallowed, hg⟩
    · refine ⟨hbounds, ?_⟩
      intro req op hnext
      rw [hstopped] at hnext
      cases hnext
  · intro past d label d' hpast hexec hne
    have hown : N.ownStep t label = false := by
      rcases label with ⟨i, ev⟩ | ev
      · cases ev with
        | call req => rfl
        | step e =>
          refine decide_eq_false ?_
          rintro rfl
          exact hne _ rfl
      · rfl
    refine ⟨fun g hg => hg.other hN hc₁ hpast hexec hown, ?_⟩
    rw [proofReads_snoc hpast, ownSteps_snoc, readsProof, hown]
    exact id
  · rintro past d e op k s' r g hpast hthread hans - hg ⟨hsteps, hrounds, hallowed⟩
    obtain ⟨g', hcount, hlearns, hholds⟩ := hg.own hN hc₁ hpast hthread hans hallowed
    exact ⟨g', ⟨hcount, hlearns⟩, hholds⟩
  · rintro past d e op k s' g hpast hthread hans hg ⟨hsteps, hrounds, hallowed⟩
    have hreads : N.readsProof t d (.inl (t, .step e)) = op.proofRow? := by
      simp [readsProof, ownStep, hthread, Thread.next?]
    rw [proofReads_snoc hpast, ownSteps_snoc, hreads, ← hg.2.2.1, ← hg.2.2.2]
    cases op with
    | proofRow height =>
      have hroom := hallowed.2.2
      simp [ownStep, RpcOp.proofRow?]
      omega
    | _ =>
      simp [ownStep, RpcOp.proofRow?]
      omega

/-- **Serving a batch ends.** Whatever else happens meanwhile, a handler that serves a batch of any
size limit from any height reads at most one proof more than the limit, each time with a block to
add, and takes a bounded number of steps; a proof it is about to read is stored, so it never asks for
the same height again; and it never waits as long as the node is there and the height it asks for is
one SQLite can bind. -/
theorem lz4Blocks_ends (hN : N.Lawful) (hc : (N.swarm ι).procs.lts.Reachable c)
    (hcall : (N.swarm ι).procs.exec c (.inl (t, .call (.getLz4Blocks height sizeLimit))) = some c₁)
    (hrun : (N.swarm ι).procs.run c₁ labels = some c') :
    (N.proofReads t c₁ labels).length ≤ min sizeLimit 10000000 + 1 ∧
      N.ownSteps t labels ≤ maxSteps (min sizeLimit 10000000) ∧
      ∀ req op, (c'.procs t).next? = some (req, op) →
        op ≠ .spin ∧
        (∀ h, op = .proofRow h → ((c'.shared.nodes t.1).db.consensusProofs[h]?).isSome) ∧
        ((c'.shared.nodes t.1).alive = true → (∀ h, op = .blockRow h → h ≤ maxSqlHeight) →
          ∀ e, ∃ c'', (N.swarm ι).procs.exec c' (.inl (t, .step e)) = some c'') := by
  obtain ⟨⟨hrounds, hsteps⟩, hmoment⟩ := batch_moments hN hc hcall hrun
  have hc' : (N.swarm ι).procs.lts.Reachable c' :=
    Lts.Reachable.trans (hc.tail hcall) (Procs.reaches_of_run hrun)
  have hok := swarm_nodeOk hN hc' t.1
  refine ⟨hrounds, hsteps, ?_⟩
  intro req op hnext
  obtain ⟨g, hallowed, htop, hfetched, -, -⟩ := hmoment req op hnext
  refine ⟨?_, ?_, ?_⟩
  · rintro rfl
    exact hallowed
  · rintro h rfl
    exact proof_isSome hN hok hallowed.1 (hallowed.2.1.trans htop)
  · intro halive hfit e
    obtain ⟨res, hnode⟩ := nodeExec_enabled hN hok e halive htop hfetched hallowed hfit
    have hexec : N.exec t e op c'.shared = some
        (N.noted t (c'.shared.nodes t.1)
          { c'.shared with nodes := Function.update c'.shared.nodes t.1 res.1 } op, res.2) := by
      unfold exec
      rw [if_pos halive, hnode]
      rfl
    exact Threads.exec_of_next hnext hexec

end Runs

end Swarm

end NodeRpc

namespace Ledger

/-- A batch served from one block: all that is stored, though the limit leaves room for more. -/
theorem lz4Blocks_ends_oneBlock :
    let steps : List (rpc.Label Unit) := List.replicate 4 (.inl (((), 0), .step alone))
    ∃ c₁ c', (rpc.swarm Unit).procs.exec (swarmOn fun _ => oneBlock)
        (.inl (((), 0), .call (.getLz4Blocks 1 5000))) = some c₁ ∧
      (rpc.swarm Unit).procs.run c₁ steps = some c' ∧
      (rpc.proofReads ((), 0) c₁ steps).length ≤ min 5000 10000000 + 1 ∧
      rpc.ownSteps ((), 0) steps ≤ NodeRpc.maxSteps (min 5000 10000000) ∧
      ∀ req op, (c'.procs ((), 0)).next? = some (req, op) →
        op ≠ .spin ∧
        (∀ h, op = .proofRow h → ((c'.shared.nodes ()).db.consensusProofs[h]?).isSome) ∧
        ((c'.shared.nodes ()).alive = true → (∀ h, op = .blockRow h → h ≤ maxSqlHeight) →
          ∀ e, ∃ c'', (rpc.swarm Unit).procs.exec c' (.inl (((), 0), .step e)) = some c'') := by
  intro steps
  have hrun : ((rpc.swarm Unit).procs.run (swarmOn fun _ => oneBlock)
      (.inl (((), 0), .call (.getLz4Blocks 1 5000)) :: steps)).isSome := by
    decide +kernel
  obtain ⟨c', hc'⟩ := Option.isSome_iff_exists.mp hrun
  obtain ⟨c₁, hcall, hrest⟩ := Lts.run_uncons hc'
  exact ⟨c₁, c', hcall, hrest, NodeRpc.lz4Blocks_ends rpc_lawful
    (.init (swarmOn_init fun _ => oneBlock_reachable)) hcall hrest⟩

end Ledger

end Melnode
