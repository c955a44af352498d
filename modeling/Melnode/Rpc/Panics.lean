import Melnode.Rpc.Caches
import Melnode.Rpc.Gossip

/-!
# Where a handler panics

A panic of a handler has a reason in a store it has seen, and stores only grow. So no handler
panics while no rebuilt stakes mismatch, no `get_smt_branch` for `Stakes` finds its height, no batch
is longer than any memory and no accepted transaction takes the weight of a mempool past `u128`
(`never_panics`). A panic ends the node, since the release profile aborts on it.
-/

namespace Melnode

open Lib

/-- If the transaction is accepted, the weight of the mempool stays within `u128`. -/
def Mempool.WeightFits {Sealed Unsealed : Type} (M : Melstf Sealed Unsealed)
    (mp : Mempool Unsealed) (tx : Transaction) : Prop :=
  mp.nextWeight < weightLimit → M.hashNosigs tx ∉ mp.txxInState →
    (M.applyTx mp.provisionalState tx).isOk → mp.nextWeight + M.weight tx < u128Bound

theorem Mempool.WeightFits.ne_panic {Sealed Unsealed : Type} {M : Melstf Sealed Unsealed}
    {mp : Mempool Unsealed} {tx : Transaction} (h : mp.WeightFits M tx) (site : PanicSite) :
    (Mempool.applyTransaction M mp tx).1 ≠ .error (.panic site) := by
  intro hpanic
  rcases heq : Mempool.applyTransaction M mp tx with ⟨res, mp'⟩
  obtain rfl : res = .error (.panic site) := by
    rw [heq] at hpanic
    exact hpanic
  cases Mempool.applyTransaction_cases heq with
  | overflow hroom hnew hstate hweight =>
    have hlt := h hroom hnew (by rw [hstate]; rfl)
    omega

namespace NodeRpc

variable {Sealed Unsealed Tree ω ι : Type} {N : NodeRpc Sealed Unsealed Tree ω}

/-- What keeps a request from a panic: there is nothing at the height, or nothing too long. -/
def Answerable (N : NodeRpc Sealed Unsealed Tree ω) (db : Tables) : Request → Prop
  | .getSmtBranch height .stakes _ => db.block? height = none
  | .getLz4Blocks _ _ => ¬ N.Oversized db
  | _ => True

/-- What keeps a handler from a panic at its next operation. -/
def Harmless (N : NodeRpc Sealed Unsealed Tree ω) (node : RpcNode Sealed Unsealed Tree)
    (req : Request) (op : RpcOp Tree ι) : Prop :=
  N.Answerable node.db req ∧ ∀ tx ∈ RpcOp.applied? op, node.mempool.WeightFits N.melstf tx

section Stores

variable {db db' : Tables}

theorem Mismatch.grows (hB : N.melstf.BuildsStates) (hchain : N.melstf.Chain N.genesis db)
    (h : N.Mismatch db) (hG : db.IsPrefix db') : N.Mismatch db' := by
  obtain ⟨height, blk, hblk, hne⟩ := h
  refine ⟨height, blk, hG.block? hblk, ?_⟩
  rw [Melstf.getStakeset_isPrefix hG ((hchain.wellFormed hB).block_le hblk).2]
  exact hne

theorem Oversized.grows (h : N.Oversized db) (hG : db.IsPrefix db') : N.Oversized db' := by
  obtain ⟨height, blk, proof, hblk, hproof, hlong⟩ := h
  exact ⟨height, blk, proof, hG.block? hblk, hG.keeps.proofs hproof, hlong⟩

/-- **A harmless operation is no panic.** -/
theorem Harmless.ne_panic (hN : N.Lawful) (hempty : N.emptyTree.isSome)
    {node : RpcNode Sealed Unsealed Tree} {req : Request} {op : RpcOp Tree ι} {g : N.Seen}
    (h : N.Harmless node req op) (hstakes : ¬ N.Mismatch node.db)
    (hallowed : N.Allowed req g op) (hseen : ∀ d ∈ g.stores, d.IsPrefix node.db) (site : RpcPanic) :
    op ≠ .panic site := by
  rintro rfl
  obtain ⟨d, hd, hpanics⟩ := hallowed
  have hpre := hseen d hd
  cases site with
  | todo =>
    obtain ⟨height, key, blk, rfl, hblk⟩ := hpanics
    have hnone : node.db.block? height = none := h.1
    rw [hpre.block? hblk] at hnone
    cases hnone
  | unwrap =>
    have hnone : N.emptyTree = none := hpanics
    rw [hnone] at hempty
    cases hempty
  | slice => exact hpanics
  | storage site =>
    cases site with
    | stakesHashMismatch => exact hstakes (Mismatch.grows hN.builds (g.chain d hd) hpanics hpre)
    | overflow =>
      obtain ⟨⟨height, sizeLimit, rfl⟩, hlong⟩ := hpanics
      exact h.1 (hlong.grows hpre)
    | _ => exact hpanics

end Stores

/-- Only a panic ends a node. -/
theorem nodeExec_panicked {node node' : RpcNode Sealed Unsealed Tree} {e : Surroundings ι}
    {op : RpcOp Tree ι} {r : Option op.Res} (h : N.nodeExec e node op = some (node', r))
    (hpanic : ∀ site, op ≠ .panic site)
    (hweight : ∀ tx, op = .applyTransaction tx → node.mempool.WeightFits N.melstf tx) :
    node'.panicked = node.panicked := by
  cases op with
  | panic site => exact absurd rfl (hpanic site)
  | applyTransaction tx =>
    obtain ⟨node₁, hstep, heq⟩ := Option.map_eq_some_iff.mp h
    obtain ⟨storage, -, rfl⟩ := Option.map_eq_some_iff.mp hstep
    split at heq
    · cases heq
      rfl
    · cases heq
      rfl
    · next site hres => exact absurd hres ((hweight tx rfl).ne_panic site)
  | blockRow height =>
    simp only [nodeExec] at h
    split at h
    · split at h
      · obtain ⟨node₁, hstep, heq⟩ := Option.map_eq_some_iff.mp h
        obtain ⟨storage, -, rfl⟩ := Option.map_eq_some_iff.mp hstep
        cases heq
        rfl
      · cases h
        rfl
    · cases h
  | cacheBlock height blk =>
    obtain ⟨node₁, hstep, heq⟩ := Option.map_eq_some_iff.mp h
    obtain ⟨storage, -, rfl⟩ := Option.map_eq_some_iff.mp hstep
    cases heq
    rfl
  | stakeset height =>
    simp only [nodeExec] at h
    split at h <;> cases h
    rfl
  | proofRow height =>
    simp only [nodeExec] at h
    split at h <;> cases h
    rfl
  | spin => cases h
  | _ =>
    cases h
    rfl

section Swarm

variable [DecidableEq ι]

/-- The stakes rebuilt from the tables match the headers. -/
def StakesMatch (N : NodeRpc Sealed Unsealed Tree ω) (c : N.Config ι) : Prop :=
  ∀ i, ¬ N.Mismatch (c.shared.nodes i).db

/-- The step of a handler is harmless. -/
def HarmlessStep (N : NodeRpc Sealed Unsealed Tree ω) (c : N.Config ι) : N.Label ι → Prop
  | .inl (t, .step _) =>
    ∀ next ∈ (c.procs t).next?, N.Harmless (c.shared.nodes t.1) next.1 next.2
  | _ => True

theorem exec_panicked {s s' : Network Sealed Unsealed Tree ι} {t : ι × Nat} {e : Surroundings ι}
    {op : RpcOp Tree ι} {r : Option op.Res} (h : N.exec t e op s = some (s', r))
    (hpanic : ∀ site, op ≠ .panic site)
    (hweight : ∀ tx, op = .applyTransaction tx → (s.nodes t.1).mempool.WeightFits N.melstf tx)
    (i : ι) : (s'.nodes i).panicked = (s.nodes i).panicked := by
  obtain ⟨node, hnode, rfl⟩ := exec_eq h
  rw [noted_nodes]
  exact nodes_update (P := fun j node => node.panicked = (s.nodes j).panicked) (fun _ => rfl)
    (nodeExec_panicked hnode hpanic hweight) i

theorem env_panicked {s s' : Network Sealed Unsealed Tree ι} {d : NetworkEvent Sealed ι}
    (h : N.env s d = some s') (i : ι) : (s'.nodes i).panicked = (s.nodes i).panicked := by
  have hone : ∀ {j : ι} {node : RpcNode Sealed Unsealed Tree},
      node.panicked = (s.nodes j).panicked →
        (Function.update s.nodes j node i).panicked = (s.nodes i).panicked :=
    fun hnode => nodes_update (P := fun j node => node.panicked = (s.nodes j).panicked)
      (fun _ => rfl) hnode i
  cases d with
  | storage j label =>
    simp only [env] at h
    split at h
    · obtain ⟨node, hstep, rfl⟩ := Option.map_eq_some_iff.mp h
      obtain ⟨storage, -, rfl⟩ := Option.map_eq_some_iff.mp hstep
      exact hone rfl
    · cases h
  | _ =>
    cases h
    exact hone rfl

/-- **No request ends a node**: where rebuilt stakes match, in every run whose steps are harmless no
handler panics. -/
theorem never_panics (hN : N.Lawful) (hempty : N.emptyTree.isSome) {c : N.Config ι}
    (hc : ((N.swarm ι).procs.lts.guard fun c label =>
      N.StakesMatch c ∧ N.HarmlessStep c label).Reachable c) (i : ι) :
    (c.shared.nodes i).panicked = none := by
  suffices h : ∀ i, (c.shared.nodes i).panicked = none from h i
  refine hc.invariant_of_reachable (I := fun c => ∀ i, (c.shared.nodes i).panicked = none) ?_ ?_
  · rintro c ⟨⟨-, -, storage, -, hnodes⟩, -⟩ i
    rw [hnodes]
    rfl
  · rintro c label c' hreach hnone ⟨⟨hstakes, hgood⟩, hexec⟩ i
    obtain ⟨hok, hlocal⟩ := (swarm_sound hN).reachable hreach
    rcases label with ⟨t, e⟩ | d
    · rcases Threads.exec_thread hexec with hsame | ⟨ev, req, op, k, r, rfl, hthread, hans⟩
      · rw [hsame]
        exact hnone i
      · have hop : N.Harmless (c.shared.nodes t.1) req op := by
          apply hgood (req, op)
          rw [hthread]
          rfl
        have hthreadOk := hlocal t
        rw [hthread] at hthreadOk
        obtain ⟨g, hseen, hallowed, -⟩ := hthreadOk
        rw [exec_panicked hans (hop.ne_panic hN hempty (hstakes t.1) hallowed hseen)]
        · exact hnone i
        · rintro tx rfl
          exact hop.2 tx rfl
    · obtain ⟨s', hstep, rfl⟩ := Procs.exec_env.mp hexec
      exact (env_panicked hstep i).trans (hnone i)

end Swarm

/-! ## Decidability -/

section Decide

instance {Sealed Unsealed : Type} (M : Melstf Sealed Unsealed) (mp : Mempool Unsealed)
    (tx : Transaction) : Decidable (mp.WeightFits M tx) :=
  inferInstanceAs (Decidable (_ → _ → _ → _))

variable (N)

/-- The stored blocks are listed. -/
theorem exists_block? {db : Tables} {p : Nat → Block → Prop} :
    (∃ height blk, db.block? height = some blk ∧ p height blk) ↔
      ∃ kv ∈ db.history.toList, p kv.1 kv.2.block := by
  constructor
  · rintro ⟨height, blk, hblk, hp⟩
    obtain ⟨row, hrow, rfl⟩ := Melstf.block?_eq_some.mp hblk
    exact ⟨(height, row), Std.ExtTreeMap.mem_toList_iff_getElem?_eq_some.mpr hrow, hp⟩
  · rintro ⟨⟨height, row⟩, hmem, hp⟩
    have hrow := Std.ExtTreeMap.mem_toList_iff_getElem?_eq_some.mp hmem
    exact ⟨height, row.block, Melstf.block?_eq_some.mpr ⟨row, hrow, rfl⟩, hp⟩

instance (db : Tables) : Decidable (N.Mismatch db) := decidable_of_iff _ exists_block?.symm

theorem oversized_iff {db : Tables} : N.Oversized db ↔ ∃ kv ∈ db.history.toList,
    ∃ proof ∈ db.consensusProofs[kv.1]?,
      2 ^ 63 ≤ N.wire.blockLen kv.2.block + N.wire.proofLen proof := by
  rw [← exists_block? (p := fun height blk => ∃ proof ∈ db.consensusProofs[height]?,
    2 ^ 63 ≤ N.wire.blockLen blk + N.wire.proofLen proof)]
  simp [Oversized]

instance (db : Tables) : Decidable (N.Oversized db) := decidable_of_iff _ N.oversized_iff.symm

instance (db : Tables) : ∀ req, Decidable (N.Answerable db req)
  | .sendTx _ => inferInstanceAs (Decidable True)
  | .getAbbrBlock _ => inferInstanceAs (Decidable True)
  | .getSummary => inferInstanceAs (Decidable True)
  | .getBlock _ => inferInstanceAs (Decidable True)
  | .getLz4Blocks _ _ => inferInstanceAs (Decidable (¬ N.Oversized db))
  | .getSmtBranch height .stakes _ => inferInstanceAs (Decidable (db.block? height = none))
  | .getSmtBranch _ .coins _ => inferInstanceAs (Decidable True)
  | .getSmtBranch _ .history _ => inferInstanceAs (Decidable True)
  | .getSmtBranch _ .pools _ => inferInstanceAs (Decidable True)
  | .getSmtBranch _ .transactions _ => inferInstanceAs (Decidable True)
  | .getStakersRaw _ => inferInstanceAs (Decidable True)

instance (node : RpcNode Sealed Unsealed Tree) (req : Request) (op : RpcOp Tree ι) :
    Decidable (N.Harmless node req op) :=
  inferInstanceAs (Decidable (_ ∧ _))

instance [Fintype ι] [DecidableEq ι] (c : N.Config ι) : Decidable (N.StakesMatch c) :=
  inferInstanceAs (Decidable (∀ i, ¬ N.Mismatch (c.shared.nodes i).db))

instance [DecidableEq ι] (c : N.Config ι) : ∀ label, Decidable (N.HarmlessStep c label)
  | .inl (t, .step _) => inferInstanceAs (Decidable (∀ next ∈ (c.procs t).next?,
      N.Harmless (c.shared.nodes t.1) next.1 next.2))
  | .inl (_, .call _) => inferInstanceAs (Decidable True)
  | .inr _ => inferInstanceAs (Decidable True)

end Decide

end NodeRpc

/-! ## One node asked for branches -/

namespace Ledger

/-- Steps that ask for a stored branch, and for stakes at a height to come. -/
def asksHarmless : List (rpc.Label Unit) :=
  handles ((), 0) alone (.getSmtBranch 1 .transactions 0) 8 ++
    handles ((), 1) alone (.getSmtBranch 2 .stakes 0) 2

/-- A node with one block after these. -/
def askedHarmless : rpc.Config Unit := swarmAfter (swarmOn fun _ => oneBlock) asksHarmless

theorem askedHarmless_reachable :
    ((rpc.swarm Unit).procs.lts.guard fun c label =>
      rpc.StakesMatch c ∧ rpc.HarmlessStep c label).Reachable askedHarmless :=
  ⟨_, swarmOn_init fun _ => oneBlock_reachable, swarmAfter_guarded (by decide +kernel)⟩

theorem never_panics_branches : (askedHarmless.shared.nodes ()).panicked = none :=
  NodeRpc.never_panics rpc_lawful rfl askedHarmless_reachable ()

/-- A node with one block that is asked for a branch of its stakes. -/
def askedStakes : rpc.Config Unit :=
  swarmAfter (swarmOn fun _ => oneBlock) (handles ((), 0) alone (.getSmtBranch 1 .stakes 0) 9)

/-- `todo!`: the node ends. -/
theorem getSmtBranch_panics :
    ((rpc.swarm Unit).procs.lts.guard fun c _ => rpc.StakesMatch c).Reachable askedStakes ∧
      rpc.StakesMatch askedStakes ∧ (askedStakes.shared.nodes ()).panicked = some .todo := by
  refine ⟨⟨_, swarmOn_init fun _ => oneBlock_reachable, ?_⟩, ?_, ?_⟩
  · exact swarmAfter_guarded (by decide +kernel)
  · decide +kernel
  · decide +kernel

end Ledger

end Melnode
