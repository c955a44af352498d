import Melnode.Rpc.Caches
import Melnode.Rpc.Gossip

/-!
# Floods

A mempool records what it accepts until its next rebase, so a node accepts a transaction once in each
interval between rebases (`GossipOk`), however often and in whatever order it is sent, and whatever
`recent` has forgotten. Only an accepting handler forwards, 16 copies at most. So the copies of a
transaction are bounded over the whole network (`gossip_bounded`).
-/

namespace Melnode

open Lib

variable {Sealed Unsealed Tree ω ι : Type}

/-- What names an acceptance: the node, the transaction and the interval. -/
def Acceptance.key (a : Acceptance ι) : ι × TxHash × Nat := (a.handler.1, a.hash, a.interval)

/-- A node knows of an acceptance: if it is of the current interval, the hash is recorded. -/
structure RpcNode.Remembers (node : RpcNode Sealed Unsealed Tree) (a : Acceptance ι) : Prop where
  interval : a.interval ≤ node.rebases
  recorded : a.interval = node.rebases → a.hash ∈ node.mempool.txxInState

theorem RpcNode.Remembers.grows {node node' : RpcNode Sealed Unsealed Tree} {a : Acceptance ι}
    (h : node.Remembers a) (hmempool : node.mempool.txxInState ⊆ node'.mempool.txxInState)
    (hrebases : node'.rebases = node.rebases) : node'.Remembers a := by
  refine ⟨?_, fun heq => hmempool (h.recorded ?_)⟩
  · rw [hrebases]
    exact h.interval
  · rw [← hrebases]
    exact heq

/-- After a rebase, every acceptance is of an earlier interval. -/
theorem RpcNode.Remembers.rebase {node node' : RpcNode Sealed Unsealed Tree} {a : Acceptance ι}
    (h : node.Remembers a) (hrebases : node'.rebases = node.rebases + 1) : node'.Remembers a := by
  have hlt : a.interval < node'.rebases := by
    rw [hrebases]
    exact Nat.lt_succ_of_le h.interval
  exact ⟨Nat.le_of_lt hlt, fun heq => absurd heq (Nat.ne_of_lt hlt)⟩

namespace Network

variable [DecidableEq ι] (s : Network Sealed Unsealed Tree ι)

/-- What a handler has had accepted. -/
def acceptedBy (t : ι × Nat) : List (Acceptance ι) := s.accepted.filter fun a => a.handler = t

/-- The copies a handler has sent. -/
def copiesBy (t : ι × Nat) : List (Copy ι) := s.copies.filter fun m => m.handler = t

end Network

namespace NodeRpc

variable {N : NodeRpc Sealed Unsealed Tree ω}

/-- **Once in an interval**: the nodes know of all acceptances, and these are different ones. -/
structure GossipOk (s : Network Sealed Unsealed Tree ι) : Prop where
  remembers : ∀ i, ∀ a ∈ s.accepted, a.handler.1 = i → (s.nodes i).Remembers a
  nodup : (s.accepted.map Acceptance.key).Nodup

section Node

variable {node node' : RpcNode Sealed Unsealed Tree}

/-- Only a rebase and `send_tx` touch the mempool. -/
theorem storageExec_mempool {label : (Nat × CallEvent) ⊕ StorageEvent Sealed}
    (h : N.storageExec node label = some node') (hothers : isOthers label = true)
    (hrebase : isRebase label = false) :
    node'.mempool = node.mempool ∧ node'.rebases = node.rebases := by
  obtain ⟨storage, hstep, rfl⟩ := Option.map_eq_some_iff.mp h
  refine ⟨?_, rfl⟩
  show storage.shared.mempool = node.storage.shared.mempool
  rcases label with ⟨i, e⟩ | d
  · obtain ⟨sh', call', hcall, rfl⟩ := Procs.exec_proc.mp hstep
    refine (Melstf.callStep_cases hcall).2.mempool_eq ?_
    rintro rfl
    cases hrebase
  · obtain ⟨sh', hstep', rfl⟩ := Procs.exec_env.mp hstep
    cases Melstf.storageStep_cases hstep' with
    | rebaseMempool state => cases hrebase
    | sendTx tx => cases hothers
    | kill => cases hothers
    | reopen => cases hothers
    | _ => rfl

/-- `apply_transaction` as an operation of a handler. -/
theorem nodeExec_applyTransaction {e : Surroundings ι} {tx : Transaction}
    {r : Option (Except MempoolError Unit)}
    (h : N.nodeExec e node (.applyTransaction tx : RpcOp Tree ι) = some (node', r)) :
    node'.mempool = (Mempool.applyTransaction N.melstf node.mempool tx).2 ∧
      node'.rebases = node.rebases ∧ ∀ res, r = some res →
        (res = .ok () ↔ (Mempool.applyTransaction N.melstf node.mempool tx).1 = .ok ()) := by
  obtain ⟨node₁, hstep, heq⟩ := Option.map_eq_some_iff.mp h
  have hnode₁ : node₁.mempool = (Mempool.applyTransaction N.melstf node.mempool tx).2 ∧
      node₁.rebases = node.rebases := by
    obtain ⟨storage, hstep', rfl⟩ := Option.map_eq_some_iff.mp hstep
    obtain ⟨sh', henv, rfl⟩ := Procs.exec_env.mp hstep'
    have hsend : N.melstf.storageStep N.genesis (.sendTx tx) node.storage.shared = some sh' := henv
    cases Melstf.storageStep_cases hsend
    exact ⟨rfl, rfl⟩
  split at heq
  · next hres =>
    cases heq
    refine ⟨hnode₁.1, hnode₁.2, ?_⟩
    rintro res ⟨⟩
    simp [hres]
  · next hres =>
    cases heq
    refine ⟨hnode₁.1, hnode₁.2, ?_⟩
    rintro res ⟨⟩
    simp [hres]
  · cases heq
    exact ⟨hnode₁.1, hnode₁.2, by rintro res ⟨⟩⟩

/-- A quiet operation leaves the mempool as it is. -/
theorem nodeExec_quiet {e : Surroundings ι} {op : RpcOp Tree ι} {r : Option op.Res}
    (h : N.nodeExec e node op = some (node', r)) (hop : op.Quiet) :
    node'.mempool = node.mempool ∧ node'.rebases = node.rebases := by
  cases op with
  | applyTransaction tx => exact absurd hop id
  | forward neigh tx => exact absurd hop id
  | blockRow height =>
    simp only [nodeExec] at h
    split at h
    · split at h
      · obtain ⟨node₁, hstep, heq⟩ := Option.map_eq_some_iff.mp h
        cases heq
        exact storageExec_mempool hstep rfl rfl
      · cases h
        exact ⟨rfl, rfl⟩
    · cases h
  | cacheBlock height blk =>
    obtain ⟨node₁, hstep, heq⟩ := Option.map_eq_some_iff.mp h
    cases heq
    exact storageExec_mempool hstep rfl rfl
  | stakeset height =>
    simp only [nodeExec] at h
    split at h <;> cases h
    exact ⟨rfl, rfl⟩
  | proofRow height =>
    simp only [nodeExec] at h
    split at h <;> cases h
    exact ⟨rfl, rfl⟩
  | spin => cases h
  | _ =>
    cases h
    exact ⟨rfl, rfl⟩

end Node

section Swarm

variable [DecidableEq ι] {s s' : Network Sealed Unsealed Tree ι}

/-- What has happened tells this of a handler that knows `g`. -/
def Witnessed (N : NodeRpc Sealed Unsealed Tree ω) (s : Network Sealed Unsealed Tree ι)
    (t : ι × Nat) : Option (TxHash × Nat) → Prop
  | none => s.acceptedBy t = [] ∧ s.copiesBy t = []
  | some (hash, n) => (∃ a, s.acceptedBy t = [a] ∧ a.hash = hash) ∧
      (∀ m ∈ s.copiesBy t, N.melstf.hashNosigs m.tx = hash) ∧ (s.copiesBy t).length + n ≤ 16

/-- What a handler leaves to the others. -/
def SameOthers (t : ι × Nat) (s s' : Network Sealed Unsealed Tree ι) : Prop :=
  ∀ t', t' ≠ t → s'.acceptedBy t' = s.acceptedBy t' ∧ s'.copiesBy t' = s.copiesBy t'

theorem Witnessed.same {t : ι × Nat} {g : Option (TxHash × Nat)} (h : N.Witnessed s t g)
    (haccepted : s'.acceptedBy t = s.acceptedBy t) (hcopies : s'.copiesBy t = s.copiesBy t) :
    N.Witnessed s' t g := by
  cases g with
  | none =>
    unfold Witnessed
    rw [haccepted, hcopies]
    exact h
  | some known =>
    unfold Witnessed
    rw [haccepted, hcopies]
    exact h

theorem GossipOk.update {i : ι} {node : RpcNode Sealed Unsealed Tree} (h : GossipOk s)
    (hnode : ∀ a, (s.nodes i).Remembers a → node.Remembers (ι := ι) a) :
    GossipOk { s with nodes := Function.update s.nodes i node } where
  remembers := nodes_update (P := fun j node => ∀ a ∈ s.accepted, a.handler.1 = j → node.Remembers a)
    h.remembers fun a ha hi => hnode a (h.remembers i a ha hi)
  nodup := h.nodup

/-- A new acceptance, of a hash that was not recorded. -/
theorem GossipOk.accept {t : ι × Nat} {hash : TxHash} {node : RpcNode Sealed Unsealed Tree}
    (h : GossipOk s) (hmempool : (s.nodes t.1).mempool.txxInState ⊆ node.mempool.txxInState)
    (hrebases : node.rebases = (s.nodes t.1).rebases)
    (hnew : hash ∉ (s.nodes t.1).mempool.txxInState) (hin : hash ∈ node.mempool.txxInState) :
    GossipOk { s with
      nodes := Function.update s.nodes t.1 node
      accepted := ⟨t, hash, (s.nodes t.1).rebases⟩ :: s.accepted } where
  remembers i a ha hi := by
    rcases List.mem_cons.mp ha with rfl | ha
    · obtain rfl : t.1 = i := hi
      show (Function.update s.nodes t.1 node t.1).Remembers _
      rw [Function.update_self]
      exact ⟨Nat.le_of_eq hrebases.symm, fun _ => hin⟩
    · exact (h.update fun a hold => hold.grows hmempool hrebases).remembers i a ha hi
  nodup := by
    rw [List.map_cons, List.nodup_cons]
    refine ⟨fun hmem => ?_, h.nodup⟩
    obtain ⟨a, ha, hkey⟩ := List.mem_map.mp hmem
    obtain ⟨hnode, hhash, hinterval⟩ : a.handler.1 = t.1 ∧ a.hash = hash ∧
        a.interval = (s.nodes t.1).rebases := by
      simpa [Acceptance.key] using hkey
    exact hnew (hhash ▸ (h.remembers t.1 a ha hnode).recorded hinterval)

/-- What a handler owes after an operation: what is left to the others, and what it knows. -/
structure Gossips (N : NodeRpc Sealed Unsealed Tree ω) (t : ι × Nat)
    (s s' : Network Sealed Unsealed Tree ι) (g : Option (TxHash × Nat)) (op : RpcOp Tree ι)
    (r : Option op.Res) : Prop where
  ok : GossipOk s'
  others : SameOthers t s s'
  answered : ∀ a ∈ r, ∃ g', N.gossip.post g op a g' ∧ N.Witnessed s' t g'
  knows : ∃ g', N.Witnessed s' t g'

section Exec

variable {t : ι × Nat} {e : Surroundings ι} {g : Option (TxHash × Nat)}

theorem gossips_quiet {op : RpcOp Tree ι} {r : Option op.Res} (hop : op.Quiet) (hok : GossipOk s)
    (hg : N.Witnessed s t g) (h : N.exec t e op s = some (s', r)) : N.Gossips t s s' g op r := by
  obtain ⟨node, hnode, rfl⟩ := exec_eq h
  obtain ⟨hmempool, hrebases⟩ := nodeExec_quiet hnode hop
  have hok' : GossipOk { s with nodes := Function.update s.nodes t.1 node } :=
    hok.update fun a hold => hold.grows (by rw [hmempool]) hrebases
  have hnoted : N.noted t (s.nodes t.1) { s with nodes := Function.update s.nodes t.1 node } op =
      { s with nodes := Function.update s.nodes t.1 node } := by
    cases op with
    | applyTransaction tx => exact absurd hop id
    | forward neigh tx => exact absurd hop id
    | _ => rfl
  rw [hnoted]
  exact ⟨hok', fun t' _ => ⟨rfl, rfl⟩, fun a _ => ⟨g, ((gossip_quiet hop).2 a g).mpr rfl, hg⟩,
    g, hg⟩

theorem gossips_forward {neigh : ι} {tx : Transaction} {r : Option Unit} (hok : GossipOk s)
    (hg : N.Witnessed s t g) (hpre : N.gossip.pre g (.forward neigh tx))
    (h : N.exec t e (.forward neigh tx) s = some (s', r)) :
    N.Gossips t s s' g (.forward neigh tx) r := by
  obtain ⟨n, rfl⟩ := hpre
  obtain ⟨node, hnode, rfl⟩ := exec_eq h
  cases hnode
  have hok' : GossipOk { s with nodes := Function.update s.nodes t.1 (s.nodes t.1) } :=
    hok.update fun _ hold => hold
  obtain ⟨haccepted, hcopies, hlen⟩ := hg
  have hwitnessed : N.Witnessed (N.noted t (s.nodes t.1)
      { s with nodes := Function.update s.nodes t.1 (s.nodes t.1) } (.forward neigh tx)) t
      (some (N.melstf.hashNosigs tx, n)) := by
    have hnow : (⟨t, neigh, tx⟩ :: s.copies).filter (fun m => m.handler = t) =
        ⟨t, neigh, tx⟩ :: s.copiesBy t := List.filter_cons_of_pos (by simp)
    refine ⟨haccepted, ?_, ?_⟩
    · show ∀ m ∈ (⟨t, neigh, tx⟩ :: s.copies).filter (fun m => m.handler = t), _
      rw [hnow]
      intro m hm
      rcases List.mem_cons.mp hm with rfl | hm
      · rfl
      · exact hcopies m hm
    · show ((⟨t, neigh, tx⟩ :: s.copies).filter (fun m => m.handler = t)).length + n ≤ 16
      rw [hnow, List.length_cons]
      omega
  refine ⟨⟨hok'.remembers, hok'.nodup⟩, ?_, ?_, _, hwitnessed⟩
  · intro t' ht'
    refine ⟨rfl, List.filter_cons_of_neg ?_⟩
    simpa using fun heq : t = t' => ht' heq.symm
  · intro a _
    refine ⟨_, ?_, hwitnessed⟩
    rintro hash m heq
    cases heq
    rfl

theorem gossips_apply {tx : Transaction} {r : Option (Except MempoolError Unit)} (hok : GossipOk s)
    (hg : N.Witnessed s t g) (hpre : N.gossip.pre g (.applyTransaction tx : RpcOp Tree ι))
    (h : N.exec t e (.applyTransaction tx) s = some (s', r)) :
    N.Gossips t s s' g (.applyTransaction tx) r := by
  obtain rfl : g = none := hpre
  obtain ⟨node, hnode, rfl⟩ := exec_eq h
  obtain ⟨hmempool, hrebases, hres⟩ := nodeExec_applyTransaction hnode
  have hgrows : (s.nodes t.1).mempool.txxInState ⊆ node.mempool.txxInState := by
    rw [hmempool]
    exact Mempool.subset_applyTransaction
  simp only [noted]
  split
  · next hok₁ =>
    -- accepted: the first of this hash since the last rebase
    obtain ⟨hnew, hin⟩ := Mempool.recorded_of_accepted hok₁
    rw [← hmempool] at hin
    have hwitnessed : N.Witnessed { s with
        nodes := Function.update s.nodes t.1 node
        accepted := ⟨t, N.melstf.hashNosigs tx, (s.nodes t.1).rebases⟩ :: s.accepted } t
        (some (N.melstf.hashNosigs tx, 16)) := by
      obtain ⟨hnone, hcopies⟩ := hg
      refine ⟨⟨⟨t, N.melstf.hashNosigs tx, (s.nodes t.1).rebases⟩, ?_, rfl⟩, ?_, ?_⟩
      · show (_ :: s.accepted).filter (fun a => a.handler = t) = _
        rw [List.filter_cons_of_pos (by simp)]
        exact congrArg _ hnone
      · intro m hm
        have hm' : m ∈ s.copiesBy t := hm
        rw [hcopies] at hm'
        cases hm'
      · show (s.copiesBy t).length + 16 ≤ 16
        rw [hcopies]
        exact Nat.le_refl 16
    refine ⟨hok.accept hgrows hrebases hnew hin, ?_, ?_, _, hwitnessed⟩
    · intro t' ht'
      refine ⟨List.filter_cons_of_neg ?_, rfl⟩
      simpa using fun heq : t = t' => ht' heq.symm
    · intro res hr
      obtain rfl := (hres res hr).mpr hok₁
      exact ⟨_, rfl, hwitnessed⟩
  · next f hf =>
    refine ⟨hok.update fun a hold => hold.grows hgrows hrebases, fun t' _ => ⟨rfl, rfl⟩, ?_, none, hg⟩
    intro res hr
    cases res with
    | ok u =>
      have hok₁ := (hres _ hr).mp rfl
      rw [hf] at hok₁
      cases hok₁
    | error e => exact ⟨none, rfl, hg⟩

end Exec

/-- A step of everything else accepts and sends nothing. -/
theorem env_gossip {d : NetworkEvent Sealed ι} (hok : GossipOk s) (h : N.env s d = some s') :
    GossipOk s' ∧ s'.accepted = s.accepted ∧ s'.copies = s.copies := by
  cases d with
  | storage i label =>
    simp only [env] at h
    split at h
    · next halive =>
      obtain ⟨node, hstep, rfl⟩ := Option.map_eq_some_iff.mp h
      refine ⟨hok.update fun a hold => ?_, rfl, rfl⟩
      cases hrebase : isRebase label with
      | true =>
        refine hold.rebase ?_
        obtain ⟨storage, -, rfl⟩ := Option.map_eq_some_iff.mp hstep
        rfl
      | false =>
        obtain ⟨hmempool, hrebases⟩ := storageExec_mempool hstep halive.2 hrebase
        have hsame : node.mempool.txxInState = (s.nodes i).mempool.txxInState := by rw [hmempool]
        refine RpcNode.Remembers.grows hold ?_ ?_
        · exact hsame.symm.subset
        · exact hrebases
    · cases h
  | evictSummary i height =>
    cases h
    exact ⟨hok.update fun a hold => ⟨hold.interval, hold.recorded⟩, rfl, rfl⟩
  | evictCoinSmt i height =>
    cases h
    exact ⟨hok.update fun a hold => ⟨hold.interval, hold.recorded⟩, rfl, rfl⟩
  | evictAbbrBlock i height =>
    cases h
    exact ⟨hok.update fun a hold => ⟨hold.interval, hold.recorded⟩, rfl, rfl⟩

/-- Every handler keeps to the protocol of gossip, in every interleaving. -/
theorem gossip_sound {good : N.Config ι → N.Label ι → Prop} :
    (N.swarm ι).Sound good GossipOk SameOthers (fun _ => N.gossip) (fun _ _ _ => True) N.Witnessed
      none where
  init := by
    rintro s ⟨haccepted, hcopies, -⟩
    refine ⟨⟨fun i a ha => ?_, ?_⟩, fun t => ⟨?_, ?_⟩⟩
    · rw [haccepted] at ha
      cases ha
    · rw [haccepted]
      exact List.nodup_nil
    · unfold Network.acceptedBy
      rw [haccepted]
      rfl
    · unfold Network.copiesBy
      rw [hcopies]
      rfl
  body := body_gossip
  refl _ := fun _ _ => ⟨rfl, rfl⟩
  exec {c t e req op s' r g k} _ _ _ hok hg hpre hexec := by
    have hgossips : N.Gossips t c.shared s' g op r := by
      cases op with
      | applyTransaction tx => exact gossips_apply hok hg hpre hexec
      | forward neigh tx => exact gossips_forward hok hg hpre hexec
      | _ => exact gossips_quiet trivial hok hg hexec
    exact ⟨hgossips.ok, hgossips.others, hgossips.answered, hgossips.knows⟩
  stable hne _ hothers hg := hg.same (hothers _ hne).1 (hothers _ hne).2
  env _ _ hok henv := by
    obtain ⟨hok', haccepted, hcopies⟩ := env_gossip hok henv
    refine ⟨hok', fun t g hg => hg.same ?_ ?_⟩
    · unfold Network.acceptedBy
      rw [haccepted]
    · unfold Network.copiesBy
      rw [hcopies]

/-! ## The copies of one transaction -/

/-- The copies of a transaction. -/
def copiesOf (N : NodeRpc Sealed Unsealed Tree ω) (s : Network Sealed Unsealed Tree ι)
    (hash : TxHash) : List (Copy ι) :=
  s.copies.filter fun m => N.melstf.hashNosigs m.tx = hash

/-- The step is no rebase of a mempool. -/
def NoRebase (N : NodeRpc Sealed Unsealed Tree ω) : N.Label ι → Prop
  | .inr (.storage _ label) => isRebase label = false
  | _ => True

section Counts

variable {t : ι × Nat} {hash : TxHash}

theorem Witnessed.acceptedBy_le {g : Option (TxHash × Nat)} (h : N.Witnessed s t g) :
    (s.acceptedBy t).length ≤ 1 := by
  cases g with
  | none =>
    rw [h.1]
    exact Nat.zero_le 1
  | some known =>
    obtain ⟨⟨a, ha, -⟩, -⟩ := h
    rw [ha]
    exact Nat.le_refl 1

theorem Witnessed.copiesBy_le {g : Option (TxHash × Nat)} (h : N.Witnessed s t g) :
    (s.copiesBy t).length ≤ 16 := by
  cases g with
  | none =>
    rw [h.2]
    exact Nat.zero_le 16
  | some known => exact Nat.le_trans (Nat.le_add_right _ _) h.2.2

/-- Only an accepting handler forwards, and what it accepted. -/
theorem Witnessed.accepted {g : Option (TxHash × Nat)} {m : Copy ι}
    (h : N.Witnessed s m.handler g) (hm : m ∈ s.copies) :
    ∃ a ∈ s.accepted, a.handler = m.handler ∧ a.hash = N.melstf.hashNosigs m.tx := by
  have hby : m ∈ s.copiesBy m.handler := List.mem_filter.mpr ⟨hm, by simp⟩
  cases g with
  | none =>
    rw [h.2] at hby
    cases hby
  | some known =>
    obtain ⟨⟨a, ha, hhash⟩, hcopies, -⟩ := h
    have haby : a ∈ s.acceptedBy m.handler := by
      rw [ha]
      exact List.mem_singleton_self a
    obtain ⟨hacc, hhandler⟩ := List.mem_filter.mp haby
    exact ⟨a, hacc, by simpa using hhandler, hhash.trans (hcopies m hby).symm⟩

/-- The acceptances of one transaction: one for each node and interval. -/
theorem GossipOk.length_accepted_le [Fintype ι] (h : GossipOk s) :
    (s.accepted.filter fun a => a.hash = hash).length ≤ ∑ i, ((s.nodes i).rebases + 1) := by
  have hkeys : ((s.accepted.filter fun a => a.hash = hash).map Acceptance.key).Nodup :=
    h.nodup.sublist (List.filter_sublist.map _)
  have hpairs : (s.accepted.filter fun a => a.hash = hash).map Acceptance.key =
      ((s.accepted.filter fun a => a.hash = hash).map fun a => (a.handler.1, a.interval)).map
        fun p => (p.1, hash, p.2) := by
    rw [List.map_map]
    apply List.map_congr_left
    intro a ha
    have hhash : a.hash = hash := by simpa using (List.mem_filter.mp ha).2
    simp [Acceptance.key, hhash]
  rw [hpairs] at hkeys
  refine length_le_sum (fun a => a.handler.1) hkeys.of_map fun a ha => ?_
  exact (h.remembers _ a (List.mem_filter.mp ha).1 rfl).interval

/-- **The copies of one transaction**: 16 for each acceptance. -/
theorem GossipOk.length_copiesOf_le [Fintype ι] (h : GossipOk s)
    (hg : ∀ t, ∃ g, N.Witnessed s t g) :
    (N.copiesOf s hash).length ≤ 16 * ∑ i, ((s.nodes i).rebases + 1) := by
  calc (N.copiesOf s hash).length
      ≤ 16 * ((s.accepted.filter fun a => a.hash = hash).map Acceptance.handler).length := by
        refine length_le_mul Copy.handler (fun m hm => ?_) fun t => ?_
        · obtain ⟨hcopy, hhash⟩ := List.mem_filter.mp hm
          obtain ⟨g, hgm⟩ := hg m.handler
          obtain ⟨a, ha, hhandler, hahash⟩ := hgm.accepted hcopy
          refine List.mem_map.mpr ⟨a, List.mem_filter.mpr ⟨ha, ?_⟩, hhandler⟩
          simpa [hahash] using hhash
        · obtain ⟨g, hgt⟩ := hg t
          exact Nat.le_trans (List.filter_sublist.filter _).length_le hgt.copiesBy_le
    _ ≤ 16 * ∑ i, ((s.nodes i).rebases + 1) := by
        rw [List.length_map]
        exact Nat.mul_le_mul_left 16 h.length_accepted_le

end Counts

/-! ## Runs without a rebase -/

theorem exec_rebases {t : ι × Nat} {e : Surroundings ι} {op : RpcOp Tree ι} {r : Option op.Res}
    (h : N.exec t e op s = some (s', r)) (i : ι) :
    (s'.nodes i).rebases = (s.nodes i).rebases := by
  obtain ⟨node, hnode, rfl⟩ := exec_eq h
  rw [noted_nodes]
  refine nodes_update (P := fun j node => node.rebases = (s.nodes j).rebases) (fun _ => rfl) ?_ i
  cases op with
  | applyTransaction tx => exact (nodeExec_applyTransaction hnode).2.1
  | forward neigh tx =>
    cases hnode
    rfl
  | _ => exact (nodeExec_quiet hnode trivial).2

theorem exec_copies {t : ι × Nat} {e : Surroundings ι} {op : RpcOp Tree ι} {r : Option op.Res}
    (h : N.exec t e op s = some (s', r)) : s.copies <:+ s'.copies := by
  obtain ⟨node, -, rfl⟩ := exec_eq h
  cases op with
  | applyTransaction tx =>
    simp only [noted]
    split <;> exact List.suffix_refl _
  | forward neigh tx => exact List.suffix_cons _ _
  | _ => exact List.suffix_refl _

/-- A step that is no rebase starts no interval, and forgets no copy. -/
theorem step_noRebase {c c' : N.Config ι} {label : N.Label ι} (hok : GossipOk c.shared)
    (hlabel : N.NoRebase label) (hexec : (N.swarm ι).procs.exec c label = some c') :
    (∀ i, (c'.shared.nodes i).rebases = (c.shared.nodes i).rebases) ∧
      c.shared.copies <:+ c'.shared.copies := by
  rcases label with ⟨t, e⟩ | d
  · rcases Threads.exec_thread hexec with hsame | ⟨ev, req, op, k, r, -, -, hans⟩
    · rw [hsame]
      exact ⟨fun _ => rfl, List.suffix_refl _⟩
    · exact ⟨exec_rebases hans, exec_copies hans⟩
  · obtain ⟨s', hstep, rfl⟩ := Procs.exec_env.mp hexec
    have henv : N.env c.shared d = some s' := hstep
    refine ⟨fun i => ?_, by rw [(env_gossip hok henv).2.2]⟩
    cases d with
    | storage j label =>
      have hrebase : isRebase label = false := hlabel
      simp only [env] at henv
      split at henv
      · obtain ⟨node, hnode, rfl⟩ := Option.map_eq_some_iff.mp henv
        obtain ⟨storage, -, rfl⟩ := Option.map_eq_some_iff.mp hnode
        refine nodes_update (P := fun j node => node.rebases = (c.shared.nodes j).rebases)
          (fun _ => rfl) ?_ i
        simp [hrebase]
      · cases henv
    | _ =>
      cases henv
      refine nodes_update (P := fun j node => node.rebases = (c.shared.nodes j).rebases)
        (fun _ => rfl) ?_ i
      rfl

/-- **Gossip does not storm.** In every state of every run: no node has accepted a transaction twice
in one interval between rebases of its mempool, every copy was sent by a handler that accepted its
transaction, and no handler has accepted more than once or sent more than 16 copies. So there are at
most 16 copies of a transaction for each node and interval, 16 for each node if nothing was rebased,
and from some moment on none is sent in an infinite run without a rebase. -/
theorem gossip_bounded [Fintype ι] {c : N.Config ι} (hc : (N.swarm ι).procs.lts.Reachable c) :
    (c.shared.accepted.map Acceptance.key).Nodup ∧
      (∀ m ∈ c.shared.copies, ∃ a ∈ c.shared.accepted,
        a.handler = m.handler ∧ a.hash = N.melstf.hashNosigs m.tx) ∧
      (∀ t, (c.shared.acceptedBy t).length ≤ 1 ∧ (c.shared.copiesBy t).length ≤ 16) ∧
      (∀ hash, (N.copiesOf c.shared hash).length ≤
        16 * ∑ i, ((c.shared.nodes i).rebases + 1)) ∧
      ((∀ i, (c.shared.nodes i).rebases = 0) →
        ∀ hash, (N.copiesOf c.shared hash).length ≤ 16 * Fintype.card ι) ∧
      ∀ run : Nat → N.Config ι, run 0 = c →
        ((N.swarm ι).procs.lts.guard fun _ label => N.NoRebase label).IsRun run →
        ∀ hash, ∃ k, ∀ m, k ≤ m → (N.copiesOf (run m).shared hash).length =
          (N.copiesOf (run k).shared hash).length := by
  have hall : ∀ {d : N.Config ι}, (N.swarm ι).procs.lts.Reachable d →
      GossipOk d.shared ∧ ∀ t, ∃ g, N.Witnessed d.shared t g := by
    intro d hd
    obtain ⟨hok, hlocal⟩ := gossip_sound.reachable hd.guard_true
    exact ⟨hok, fun t => (hlocal t).knows⟩
  obtain ⟨hok, hg⟩ := hall hc
  refine ⟨hok.nodup, ?_, ?_, fun hash => hok.length_copiesOf_le hg, ?_, ?_⟩
  · intro m hm
    obtain ⟨g, hgm⟩ := hg m.handler
    exact hgm.accepted hm
  · intro t
    obtain ⟨g, hgt⟩ := hg t
    exact ⟨hgt.acceptedBy_le, hgt.copiesBy_le⟩
  · intro hzero hash
    have hle : (N.copiesOf c.shared hash).length ≤ _ := hok.length_copiesOf_le hg
    simpa [hzero] using hle
  · rintro run rfl hrun hash
    have hreach : ∀ n, (N.swarm ι).procs.lts.Reachable (run n) :=
      fun n => hc.trans (hrun.reaches n).of_guard
    have hstep : ∀ n, (∀ i, ((run (n + 1)).shared.nodes i).rebases =
        ((run n).shared.nodes i).rebases) ∧ (run n).shared.copies <:+ (run (n + 1)).shared.copies := by
      intro n
      obtain ⟨label, hlabel, hexec⟩ := hrun n
      exact step_noRebase (hall (hreach n)).1 hlabel hexec
    have hrebases : ∀ n i, ((run n).shared.nodes i).rebases = ((run 0).shared.nodes i).rebases := by
      intro n i
      induction n with
      | zero => rfl
      | succ n ih => rw [(hstep n).1, ih]
    have hbound : ∀ n, (N.copiesOf (run n).shared hash).length ≤
        16 * ∑ i, (((run 0).shared.nodes i).rebases + 1) := by
      intro n
      obtain ⟨hokn, hgn⟩ := hall (hreach n)
      have hle : (N.copiesOf (run n).shared hash).length ≤ _ := hokn.length_copiesOf_le hgn
      simpa only [hrebases n] using hle
    exact comes_to_rest (fun n => ((hstep n).2.filter _).length_le) hbound

end Swarm

end NodeRpc

/-! ## Two nodes that route to each other -/

namespace Ledger

/-- The routes lead to both nodes. -/
def both : Surroundings Bool := ⟨0, [true, false]⟩

/-- Two handlers of one node are past the check of `recent` before either records the transaction;
then the other node gets a copy. -/
def floodSteps : List (rpc.Label Bool) :=
  handles (false, 0) both (.sendTx (payment 1)) 1 ++ handles (false, 1) both (.sendTx (payment 1)) 1 ++
    List.replicate 5 (.inl ((false, 0), .step both)) ++
    List.replicate 2 (.inl ((false, 1), .step both)) ++
    handles (true, 0) both (.sendTx (payment 1)) 6

/-- Two fresh nodes after these steps. -/
def flooded : rpc.Config Bool :=
  swarmAfter (swarmOn fun _ => ledger.freshStorage threeStakers) floodSteps

theorem flooded_reachable : (rpc.swarm Bool).procs.lts.Reachable flooded := by
  have hfresh : (ledger.storage threeStakers).lts.Reachable (ledger.freshStorage threeStakers) :=
    .init ⟨rfl, rfl⟩
  exact ⟨_, swarmOn_init fun _ => hfresh, swarmAfter_reaches (by decide +kernel)⟩

/-- Each node has accepted once, and 4 copies were sent of the 32 there can be. -/
theorem gossip_bounded_twoNodes :
    (rpc.copiesOf flooded.shared (ledger.hashNosigs (payment 1))).length = 4 ∧
      (rpc.copiesOf flooded.shared (ledger.hashNosigs (payment 1))).length ≤
        16 * Fintype.card Bool := by
  obtain ⟨-, -, -, -, hcopies, -⟩ := NodeRpc.gossip_bounded flooded_reachable
  exact ⟨by decide +kernel, hcopies (by decide +kernel) _⟩

end Ledger

end Melnode
