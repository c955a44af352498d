import Melnode.Rpc.Verbs

/-!
# Caches and stores

In every run of a swarm the caches of every node hold what its store gives (`NodeOk`), so every
handler gets answers its protocol promises, and the store of every node only grows.
-/

namespace Melnode

open Lib

namespace NodeRpc

variable {Sealed Unsealed Tree ω ι : Type} {N : NodeRpc Sealed Unsealed Tree ω}

/-! ## One node -/

/-- A node's storage is one a run can lead to, and its caches hold what the store gives. -/
structure NodeOk (N : NodeRpc Sealed Unsealed Tree ω) (node : RpcNode Sealed Unsealed Tree) : Prop
  where
  storage : (N.melstf.storage N.genesis).lts.Reachable node.storage
  abbrBlocks : ∀ {height summ}, node.abbrBlockCache[height]? = some summ →
    N.AbbrOf node.db height summ
  summaries : ∀ {height summary}, node.summary[height]? = some summary →
    N.SummaryOf node.db height summary
  coinSmts : ∀ {height tree}, node.coinSmts[height]? = some tree → N.TreeOf node.db height tree

/-- What is put into a cache is what the store gives. -/
def Justified (N : NodeRpc Sealed Unsealed Tree ω) (db : Tables) : RpcOp Tree ι → Prop
  | .abbrBlockInsert height summ => N.AbbrOf db height summ
  | .summaryPush height summary => N.SummaryOf db height summary
  | .coinSmtPut height tree => N.TreeOf db height tree
  | _ => True

section Node

variable {node node' : RpcNode Sealed Unsealed Tree}

theorem NodeOk.sharedOk (hB : N.melstf.BuildsStates) (h : N.NodeOk node) :
    N.melstf.SharedOk N.genesis node.storage.shared :=
  (Melstf.storage_reachable hB h.storage).1

theorem NodeOk.chain (hB : N.melstf.BuildsStates) (h : N.NodeOk node) :
    N.melstf.Chain N.genesis node.db :=
  (h.sharedOk hB).chain

theorem Allowed.justified (hB : N.melstf.BuildsStates) {req : Request} {g : N.Seen}
    {op : RpcOp Tree ι} {db : Tables} (h : N.Allowed req g op)
    (hpre : ∀ d ∈ g.stores, d.IsPrefix db) : N.Justified db op := by
  cases op with
  | abbrBlockInsert height summ =>
    obtain ⟨d, hd, habbr⟩ := h
    exact habbr.grows (hpre d hd)
  | summaryPush height summary =>
    obtain ⟨d, hd, hsummary⟩ := h
    exact hsummary.grows (hpre d hd)
  | coinSmtPut height tree =>
    obtain ⟨d, hd, htree⟩ := h
    exact htree.grows hB (g.chain d hd) (hpre d hd)
  | _ => trivial

/-- More blocks, and the same caches. -/
theorem NodeOk.grows (hB : N.melstf.BuildsStates) (h : N.NodeOk node)
    (hstorage : (N.melstf.storage N.genesis).lts.Reachable node'.storage)
    (hG : node.db.IsPrefix node'.db) (habbr : node'.abbrBlockCache = node.abbrBlockCache)
    (hsummary : node'.summary = node.summary) (hcoin : node'.coinSmts = node.coinSmts) :
    N.NodeOk node' := by
  refine ⟨hstorage, ?_, ?_, ?_⟩
  · intro height summ hget
    rw [habbr] at hget
    exact (h.abbrBlocks hget).grows hG
  · intro height summary hget
    rw [hsummary] at hget
    exact (h.summaries hget).grows hG
  · intro height tree hget
    rw [hcoin] at hget
    exact (h.coinSmts hget).grows hB (h.chain hB) hG

/-- A step of the storage below the handlers. -/
theorem storageExec_ok (hB : N.melstf.BuildsStates) (h : N.NodeOk node)
    {label : (Nat × CallEvent) ⊕ StorageEvent Sealed}
    (hexec : N.storageExec node label = some node') :
    N.NodeOk node' ∧ node.db.IsPrefix node'.db := by
  obtain ⟨storage, hstep, rfl⟩ := Option.map_eq_some_iff.mp hexec
  obtain ⟨hok, hcalls⟩ := Melstf.storage_reachable hB h.storage
  have hG := (Melstf.exec_ok hB hok hcalls hstep).2.2.db
  exact ⟨h.grows hB (h.storage.tail hstep) hG rfl rfl rfl, hG⟩

/-- What the handlers do to a storage leaves its rows. -/
theorem storageExec_env (hB : N.melstf.BuildsStates) (h : N.NodeOk node) {d : StorageEvent Sealed}
    (hexec : N.storageExec node (.inr d) = some node') : node'.db = node.db := by
  obtain ⟨storage, hstep, rfl⟩ := Option.map_eq_some_iff.mp hexec
  obtain ⟨sh', hstep', rfl⟩ := Procs.exec_env.mp hstep
  exact (Melstf.storageStep_same hB (h.sharedOk hB) hstep').2.1

/-- **One operation** leaves the rows of the node. -/
theorem nodeExec_db (hB : N.melstf.BuildsStates) (hok : N.NodeOk node) {e : Surroundings ι}
    {op : RpcOp Tree ι} {r : Option op.Res} (h : N.nodeExec e node op = some (node', r)) :
    node'.db = node.db := by
  cases op with
  | blockRow height =>
    simp only [nodeExec] at h
    split at h
    · split at h
      · obtain ⟨node₁, hstep, heq⟩ := Option.map_eq_some_iff.mp h
        cases heq
        exact storageExec_env hB hok hstep
      · cases h
        rfl
    · cases h
  | cacheBlock height blk =>
    obtain ⟨node₁, hstep, heq⟩ := Option.map_eq_some_iff.mp h
    cases heq
    exact storageExec_env hB hok hstep
  | applyTransaction tx =>
    obtain ⟨node₁, hstep, heq⟩ := Option.map_eq_some_iff.mp h
    have hdb := storageExec_env hB hok hstep
    split at heq <;> cases heq <;> exact hdb
  | stakeset height =>
    simp only [nodeExec] at h
    split at h <;> cases h
    rfl
  | proofRow height =>
    simp only [nodeExec] at h
    split at h <;> cases h
    rfl
  | spin => cases h
  | _ =>
    cases h
    rfl

/-- **One operation** keeps the caches, if what it puts there is what the store gives. -/
theorem nodeExec_ok (hB : N.melstf.BuildsStates) (hok : N.NodeOk node) {e : Surroundings ι}
    {op : RpcOp Tree ι} {r : Option op.Res} (hj : N.Justified node.db op)
    (h : N.nodeExec e node op = some (node', r)) : N.NodeOk node' := by
  cases op with
  | blockRow height =>
    simp only [nodeExec] at h
    split at h
    · split at h
      · obtain ⟨node₁, hstep, heq⟩ := Option.map_eq_some_iff.mp h
        cases heq
        exact (storageExec_ok hB hok hstep).1
      · cases h
        exact hok
    · cases h
  | cacheBlock height blk =>
    obtain ⟨node₁, hstep, heq⟩ := Option.map_eq_some_iff.mp h
    cases heq
    exact (storageExec_ok hB hok hstep).1
  | applyTransaction tx =>
    obtain ⟨node₁, hstep, heq⟩ := Option.map_eq_some_iff.mp h
    have hok₁ := (storageExec_ok hB hok hstep).1
    split at heq <;> cases heq
    · exact hok₁
    · exact hok₁
    · exact ⟨hok₁.storage, hok₁.abbrBlocks, hok₁.summaries, hok₁.coinSmts⟩
  | abbrBlockInsert height summ =>
    cases h
    refine ⟨hok.storage, fun {k v} hget => ?_, hok.summaries, hok.coinSmts⟩
    rcases Table.of_getElem?_insert hget with ⟨rfl, rfl⟩ | hget
    · exact hj
    · exact hok.abbrBlocks hget
  | summaryPush height summary =>
    cases h
    refine ⟨hok.storage, hok.abbrBlocks, fun {k v} hget => ?_, hok.coinSmts⟩
    rcases Table.of_getElem?_insert hget with ⟨rfl, rfl⟩ | hget
    · exact hj
    · exact hok.summaries hget
  | coinSmtPut height tree =>
    cases h
    refine ⟨hok.storage, hok.abbrBlocks, hok.summaries, fun {k v} hget => ?_⟩
    rcases Table.of_getElem?_insert hget with ⟨rfl, rfl⟩ | hget
    · exact hj
    · exact hok.coinSmts hget
  | stakeset height =>
    simp only [nodeExec] at h
    split at h <;> cases h
    exact hok
  | proofRow height =>
    simp only [nodeExec] at h
    split at h <;> cases h
    exact hok
  | spin => cases h
  | _ =>
    cases h
    exact ⟨hok.storage, hok.abbrBlocks, hok.summaries, hok.coinSmts⟩

/-- **What an operation answers** is read off the store. -/
theorem nodeExec_answers (hB : N.melstf.BuildsStates) (hok : N.NodeOk node) {e : Surroundings ι}
    {op : RpcOp Tree ι} {a : op.Res} (h : N.nodeExec e node op = some (node', some a)) :
    N.Answers node.db op a := by
  cases op with
  | maxHeight =>
    cases h
    rfl
  | cachedBlock height =>
    cases h
    exact fun blk hget => (hok.sharedOk hB).cache hget
  | blockRow height =>
    simp only [nodeExec] at h
    split at h
    · split at h
      · next blk hblk =>
        obtain ⟨node₁, -, heq⟩ := Option.map_eq_some_iff.mp h
        cases heq
        exact hblk.symm
      · next hblk =>
        cases h
        exact hblk.symm
    · cases h
  | stakeset height =>
    simp only [nodeExec] at h
    split at h <;> cases h
    rfl
  | proofRow height =>
    simp only [nodeExec] at h
    split at h <;> cases h
    rfl
  | abbrBlockGet height =>
    cases h
    exact fun summ hget => hok.abbrBlocks hget
  | summaryGet height =>
    cases h
    exact fun summary hget => hok.summaries hget
  | coinSmtGet height =>
    cases h
    exact fun tree hget => hok.coinSmts hget
  | _ => trivial

end Node

/-! ## The swarm -/

section Swarm

variable [DecidableEq ι] {s s' : Network Sealed Unsealed Tree ι}

/-- What an operation of a handler changes: its own node. -/
theorem exec_eq {t : ι × Nat} {e : Surroundings ι} {op : RpcOp Tree ι} {r : Option op.Res}
    (h : N.exec t e op s = some (s', r)) : ∃ node, N.nodeExec e (s.nodes t.1) op = some (node, r) ∧
      s' = N.noted t (s.nodes t.1) { s with nodes := Function.update s.nodes t.1 node } op := by
  unfold exec at h
  split at h
  · obtain ⟨⟨node, r'⟩, hnode, heq⟩ := Option.map_eq_some_iff.mp h
    cases heq
    exact ⟨node, hnode, rfl⟩
  · cases h

omit [DecidableEq ι] in
theorem noted_nodes {t : ι × Nat} {node : RpcNode Sealed Unsealed Tree}
    {s : Network Sealed Unsealed Tree ι} {op : RpcOp Tree ι} :
    (N.noted t node s op).nodes = s.nodes := by
  cases op with
  | applyTransaction tx =>
    simp only [noted]
    split <;> rfl
  | _ => rfl

/-- A statement about every node, kept where one node changes. -/
theorem nodes_update {P : ι → RpcNode Sealed Unsealed Tree → Prop} {i : ι}
    {node : RpcNode Sealed Unsealed Tree} (hall : ∀ j, P j (s.nodes j)) (hnode : P i node) :
    ∀ j, P j (Function.update s.nodes i node j) := by
  exact (Function.forall_update_iff s.nodes P).mpr ⟨hnode, fun j _ => hall j⟩

theorem exec_db (hB : N.melstf.BuildsStates) (hok : ∀ i, N.NodeOk (s.nodes i)) {t : ι × Nat}
    {e : Surroundings ι} {op : RpcOp Tree ι} {r : Option op.Res}
    (h : N.exec t e op s = some (s', r)) (i : ι) : (s'.nodes i).db = (s.nodes i).db := by
  obtain ⟨node, hnode, rfl⟩ := exec_eq h
  rw [noted_nodes]
  have hdb := nodeExec_db hB (hok t.1) hnode
  exact nodes_update (P := fun j node => node.db = (s.nodes j).db) (fun _ => rfl) hdb i

theorem exec_nodeOk (hB : N.melstf.BuildsStates) (hok : ∀ i, N.NodeOk (s.nodes i)) {t : ι × Nat}
    {e : Surroundings ι} {op : RpcOp Tree ι} {r : Option op.Res}
    (hj : N.Justified (s.nodes t.1).db op) (h : N.exec t e op s = some (s', r)) :
    ∀ i, N.NodeOk (s'.nodes i) := by
  obtain ⟨node, hnode, rfl⟩ := exec_eq h
  rw [noted_nodes]
  exact nodes_update (P := fun _ node => N.NodeOk node) hok (nodeExec_ok hB (hok t.1) hj hnode)

/-- **Everything else** only adds blocks, and keeps the caches. -/
theorem env_nodeOk (hB : N.melstf.BuildsStates) (hok : ∀ i, N.NodeOk (s.nodes i))
    {d : NetworkEvent Sealed ι} (h : N.env s d = some s') :
    (∀ i, N.NodeOk (s'.nodes i)) ∧ ∀ i, (s.nodes i).db.IsPrefix (s'.nodes i).db := by
  have hrefl : ∀ i, (s.nodes i).db.IsPrefix (s.nodes i).db :=
    fun i => (((hok i).chain hB).wellFormed hB).isPrefix_refl
  have hboth : ∀ {i : ι} {node : RpcNode Sealed Unsealed Tree}, N.NodeOk node →
      (s.nodes i).db.IsPrefix node.db →
      (∀ j, N.NodeOk (Function.update s.nodes i node j)) ∧
        ∀ j, (s.nodes j).db.IsPrefix (Function.update s.nodes i node j).db := by
    intro i node hnode hG
    exact ⟨nodes_update (P := fun _ node => N.NodeOk node) hok hnode,
      nodes_update (P := fun j node => (s.nodes j).db.IsPrefix node.db) hrefl hG⟩
  cases d with
  | storage i label =>
    simp only [env] at h
    split at h
    · obtain ⟨node, hstep, rfl⟩ := Option.map_eq_some_iff.mp h
      obtain ⟨hnode, hG⟩ := storageExec_ok hB (hok i) hstep
      exact hboth ⟨hnode.storage, hnode.abbrBlocks, hnode.summaries, hnode.coinSmts⟩ hG
    · cases h
  | evictSummary i height =>
    cases h
    refine hboth ⟨(hok i).storage, (hok i).abbrBlocks, fun hget => ?_, (hok i).coinSmts⟩ (hrefl i)
    exact (hok i).summaries (Table.of_getElem?_erase hget)
  | evictCoinSmt i height =>
    cases h
    refine hboth ⟨(hok i).storage, (hok i).abbrBlocks, (hok i).summaries, fun hget => ?_⟩ (hrefl i)
    exact (hok i).coinSmts (Table.of_getElem?_erase hget)
  | evictAbbrBlock i height =>
    cases h
    refine hboth ⟨(hok i).storage, fun hget => ?_, (hok i).summaries, (hok i).coinSmts⟩ (hrefl i)
    exact (hok i).abbrBlocks (Table.of_getElem?_erase hget)

end Swarm

/-! ## Every run -/

section Runs

variable [DecidableEq ι]

/-- One more store. -/
def Seen.cons (g : N.Seen) (db : Tables) (hchain : N.melstf.Chain N.genesis db)
    (hpre : ∀ d ∈ g.stores, d.IsPrefix db) : N.Seen where
  stores := db :: g.stores
  chain := by
    intro d hd
    rcases List.mem_cons.mp hd with rfl | hd
    · exact hchain
    · exact g.chain d hd
  sorted := List.pairwise_cons.mpr ⟨hpre, g.sorted⟩

theorem nodeOk_startNode {storage : Procs.Config Nat (Shared Unsealed) (Call Sealed)}
    (h : (N.melstf.storage N.genesis).lts.Reachable storage) : N.NodeOk (startNode storage) where
  storage := h
  abbrBlocks hget := by simp [startNode] at hget
  summaries hget := by simp [startNode] at hget
  coinSmts hget := by simp [startNode] at hget

theorem swarm_sound (hN : N.Lawful) {good : N.Config ι → N.Label ι → Prop} :
    (N.swarm ι).Sound good (fun s => ∀ i, N.NodeOk (s.nodes i))
      (fun _ s s' => ∀ i, (s.nodes i).db.IsPrefix (s'.nodes i).db) N.reads (N.Replied ι)
      (fun s t g => ∀ d ∈ g.stores, d.IsPrefix (s.nodes t.1).db) (Seen.empty N) where
  init := by
    rintro s ⟨-, -, storage, hreach, hnodes⟩
    refine ⟨fun i => ?_, fun t d hd => absurd hd List.not_mem_nil⟩
    rw [hnodes]
    exact nodeOk_startNode (hreach i)
  body req := body_obeys hN req _
  refl hok i := (((hok i).chain hN.builds).wellFormed hN.builds).isPrefix_refl
  exec {c t e req op s' r g k} _ _ _ hok hseen hpre hexec := by
    have hdb := exec_db hN.builds hok hexec
    have hok' := exec_nodeOk hN.builds hok (Allowed.justified hN.builds hpre hseen) hexec
    have hseen' : ∀ d ∈ g.stores, d.IsPrefix (s'.nodes t.1).db := by
      rw [hdb]
      exact hseen
    have hchain := (hok t.1).chain hN.builds
    refine ⟨hok', fun i => ?_, ?_, g, hseen'⟩
    · rw [hdb]
      exact (((hok i).chain hN.builds).wellFormed hN.builds).isPrefix_refl
    · intro a ha
      obtain ⟨node, hnode, -⟩ := exec_eq hexec
      cases ha
      refine ⟨g.cons _ hchain hseen, ⟨_, rfl, nodeExec_answers hN.builds (hok t.1) hnode⟩, ?_⟩
      intro d hd
      rcases List.mem_cons.mp hd with rfl | hd
      · rw [hdb]
        exact (hchain.wellFormed hN.builds).isPrefix_refl
      · exact hseen' d hd
  stable _ _ hG hseen := fun d hd => (hseen d hd).trans (hG _)
  env _ _ hok henv := by
    obtain ⟨hok', hG⟩ := env_nodeOk hN.builds hok henv
    exact ⟨hok', fun t g hseen d hd => (hseen d hd).trans (hG t.1)⟩

/-- In every run the caches of every node hold what its store gives. -/
theorem swarm_nodeOk (hN : N.Lawful) {c : N.Config ι} (hc : (N.swarm ι).procs.lts.Reachable c) :
    ∀ i, N.NodeOk (c.shared.nodes i) :=
  ((swarm_sound hN).reachable hc.guard_true).1

/-- **One step** only adds blocks. -/
theorem swarm_step_isPrefix (hN : N.Lawful) {c c' : N.Config ι} {label : N.Label ι}
    (hok : ∀ i, N.NodeOk (c.shared.nodes i))
    (hexec : (N.swarm ι).procs.exec c label = some c') :
    ∀ i, (c.shared.nodes i).db.IsPrefix (c'.shared.nodes i).db := by
  have hrefl : ∀ i, (c.shared.nodes i).db.IsPrefix (c.shared.nodes i).db :=
    fun i => (((hok i).chain hN.builds).wellFormed hN.builds).isPrefix_refl
  rcases label with ⟨t, e⟩ | d
  · intro i
    rcases Threads.exec_thread hexec with hsame | ⟨ev, req, op, k, r, -, -, hans⟩
    · rw [hsame]
      exact hrefl i
    · rw [exec_db hN.builds hok hans]
      exact hrefl i
  · obtain ⟨s', hstep, rfl⟩ := Procs.exec_env.mp hexec
    exact (env_nodeOk hN.builds hok hstep).2

theorem swarm_isPrefix (hN : N.Lawful) {c c' : N.Config ι}
    (hc : (N.swarm ι).procs.lts.Reachable c) (hrun : (N.swarm ι).procs.lts.Reaches c c') (i : ι) :
    (c.shared.nodes i).db.IsPrefix (c'.shared.nodes i).db := by
  have hboth : (N.swarm ι).procs.lts.Reachable c' ∧
      (c.shared.nodes i).db.IsPrefix (c'.shared.nodes i).db := by
    refine hrun.invariant (I := fun c' => (N.swarm ι).procs.lts.Reachable c' ∧
      (c.shared.nodes i).db.IsPrefix (c'.shared.nodes i).db) ⟨hc, ?_⟩ ?_
    · exact (((swarm_nodeOk hN hc i).chain hN.builds).wellFormed hN.builds).isPrefix_refl
    · rintro d label d' ⟨hd, hpre⟩ hexec
      exact ⟨hd.tail hexec, hpre.trans (swarm_step_isPrefix hN (swarm_nodeOk hN hd) hexec i)⟩
  exact hboth.2

end Runs

end NodeRpc

end Melnode
