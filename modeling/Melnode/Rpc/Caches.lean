import Melnode.Rpc.Served

/-!
# Caches that cannot be seen

A handler is called, some steps of the swarm later it has its reply (`Serves`). What the handler has
seen by then are stores its node had in between (`Serves.replied`), so the reply is what the code
gives without caches on one of them (`caches_invisible`).
-/

namespace Melnode

open Lib

namespace NodeRpc

variable {Sealed Unsealed Tree ω ι : Type} {N : NodeRpc Sealed Unsealed Tree ω} [DecidableEq ι]

/-- Handler `t` is called with `req` in `c` and has its reply in `c'`, with `labels` in between. -/
def Serves (N : NodeRpc Sealed Unsealed Tree ω) (t : ι × Nat) (req : Request) (reply : Reply ω)
    (c : N.Config ι) (labels : List (N.Label ι)) (c' : N.Config ι) : Prop :=
  ∃ c₁, (N.swarm ι).procs.exec c (.inl (t, .call req)) = some c₁ ∧
    (N.swarm ι).procs.run c₁ labels = some c' ∧ c'.procs t = .running req (.ret reply)

/-- In the run of `labels` from `c` to `c'` there is a moment where the tables of node `i` are
`db`. -/
def StoreDuring (N : NodeRpc Sealed Unsealed Tree ω) (i : ι) (db : Tables) (c : N.Config ι)
    (labels : List (N.Label ι)) (c' : N.Config ι) : Prop :=
  ∃ before after m, labels = before ++ after ∧ (N.swarm ι).procs.run c before = some m ∧
    (N.swarm ι).procs.run m after = some c' ∧ (m.shared.nodes i).db = db

theorem StoreDuring.tail {i : ι} {db : Tables} {c c' c'' : N.Config ι} {labels : List (N.Label ι)}
    {label : N.Label ι} (h : N.StoreDuring i db c labels c')
    (hexec : (N.swarm ι).procs.exec c' label = some c'') :
    N.StoreDuring i db c (labels ++ [label]) c'' := by
  obtain ⟨before, after, m, rfl, hbefore, hafter, hdb⟩ := h
  refine ⟨before, after ++ [label], m, List.append_assoc .., hbefore, ?_, hdb⟩
  exact Lts.run_tail hafter hexec

theorem StoreDuring.cons {i : ι} {db : Tables} {c c₁ c' : N.Config ι} {labels : List (N.Label ι)}
    {label : N.Label ι} (hexec : (N.swarm ι).procs.exec c label = some c₁)
    (h : N.StoreDuring i db c₁ labels c') : N.StoreDuring i db c (label :: labels) c' := by
  obtain ⟨before, after, m, rfl, hbefore, hafter, hdb⟩ := h
  refine ⟨label :: before, after, m, rfl, ?_, hafter, hdb⟩
  exact Lts.run_cons hexec hbefore

/-- A handler knows stores of its node from the time since it was called. -/
theorem Serves.replied (hN : N.Lawful) {c c' : N.Config ι}
    (hc : (N.swarm ι).procs.lts.Reachable c) {t : ι × Nat} {req : Request} {reply : Reply ω}
    {labels : List (N.Label ι)} (hserves : N.Serves t req reply c labels c') :
    ∃ g : N.Seen, (∀ db ∈ g.stores, N.StoreDuring t.1 db c (.inl (t, .call req) :: labels) c') ∧
      N.Replied ι req reply g := by
  obtain ⟨c₁, hcall, hrun, hend⟩ := hserves
  have hc₁ : (N.swarm ι).procs.lts.Reachable c₁ := hc.tail hcall
  have hstart : c₁.procs t = .running req (N.body req) := Threads.exec_call hcall
  suffices h : ∃ g : N.Seen, (∀ db ∈ g.stores, N.StoreDuring t.1 db c₁ labels c') ∧
      N.Replied ι req reply g by
    obtain ⟨g, hstores, hreplied⟩ := h
    exact ⟨g, fun db hdb => (hstores db hdb).cons hcall, hreplied⟩
  refine Threads.run_obeys (fun past c g => ∀ db ∈ g.stores, N.StoreDuring t.1 db c₁ past c)
    hstart (fun db hdb => absurd hdb List.not_mem_nil) (body_obeys hN req (Seen.empty N)) ?_ ?_ hrun
    hend
  · exact fun past d label d' g _ hexec hseen db hdb => (hseen db hdb).tail hexec
  · intro past d e op k s' r g hpast hthread hans hexec hseen hpre
    have hd : (N.swarm ι).procs.lts.Reachable d := hc₁.trans (Procs.reaches_of_run hpast)
    have hok := swarm_nodeOk hN hd
    -- the stores of the past are prefixes of the one of now
    have hprefix : ∀ db ∈ g.stores, db.IsPrefix (d.shared.nodes t.1).db := by
      intro db hdb
      obtain ⟨before, after, m, -, hbefore, hafter, rfl⟩ := hseen db hdb
      exact swarm_isPrefix hN (hc₁.trans (Procs.reaches_of_run hbefore))
        (Procs.reaches_of_run hafter) t.1
    obtain ⟨node, hnode, -⟩ := exec_eq hans
    refine ⟨g.cons _ ((hok t.1).chain hN.builds) hprefix,
      ⟨_, rfl, nodeExec_answers hN.builds (hok t.1) hnode⟩, ?_⟩
    intro db hdb
    have hnow : N.StoreDuring t.1 (d.shared.nodes t.1).db c₁ past d :=
      ⟨past, [], d, (List.append_nil past).symm, hpast, rfl, rfl⟩
    rcases List.mem_cons.mp hdb with rfl | hdb
    · exact hnow.tail hexec
    · exact (hseen db hdb).tail hexec

/-- Within a run, an earlier store is a prefix of a later one. -/
theorem StoreDuring.isPrefix (hN : N.Lawful) {i : ι} {db db' : Tables} {c₁ c₂ c₃ c₄ : N.Config ι}
    {labels labels' : List (N.Label ι)} (hc : (N.swarm ι).procs.lts.Reachable c₁)
    (h : N.StoreDuring i db c₁ labels c₂) (hrun : (N.swarm ι).procs.lts.Reaches c₂ c₃)
    (h' : N.StoreDuring i db' c₃ labels' c₄) : db.IsPrefix db' := by
  obtain ⟨before, after, m, -, hbefore, hafter, rfl⟩ := h
  obtain ⟨before', after', m', -, hbefore', -, rfl⟩ := h'
  have hm := hc.trans (Procs.reaches_of_run hbefore)
  exact swarm_isPrefix hN hm ((Procs.reaches_of_run hafter).trans
    (hrun.trans (Procs.reaches_of_run hbefore'))) i

theorem StoreDuring.chain (hN : N.Lawful) {i : ι} {db : Tables} {c c' : N.Config ι}
    {labels : List (N.Label ι)} (hc : (N.swarm ι).procs.lts.Reachable c)
    (h : N.StoreDuring i db c labels c') : N.melstf.Chain N.genesis db := by
  obtain ⟨before, after, m, -, hbefore, -, rfl⟩ := h
  exact (swarm_nodeOk hN (hc.trans (Procs.reaches_of_run hbefore)) i).chain hN.builds

/-- A reply is what the code gives without caches on a store from between the call and the reply. -/
theorem Serves.uncached (hN : N.Lawful) {c c' : N.Config ι}
    (hc : (N.swarm ι).procs.lts.Reachable c) {t : ι × Nat} {req : Request} {reply : Reply ω}
    {labels : List (N.Label ι)} (hserves : N.Serves t req reply c labels c')
    (hread : req.isRead = true) :
    ∃ db, N.StoreDuring t.1 db c (.inl (t, .call req) :: labels) c' ∧
      (N.body req : Rpc Tree ι _).eval (N.uncached db) = some reply := by
  obtain ⟨g, hstores, hreplied⟩ := hserves.replied hN hc
  have hone : ∃ db ∈ g.stores, (N.body req : Rpc Tree ι _).eval (N.uncached db) = some reply := by
    cases req with
    | sendTx tx => cases hread
    | getLz4Blocks height sizeLimit => cases hread
    | _ => exact hreplied
  obtain ⟨db, hdb, heval⟩ := hone
  exact ⟨db, hstores db hdb, heval⟩

/-- **The caches are invisible.** The reply of a verb that reads is the reply of the same code
without any cache on the tables the node has at some moment between the call and the reply. A summary
above the genesis carries the proof stored for its height, which is not empty, and a block that
`get_block` has returned for a height is what every later `get_block` of that height returns. -/
theorem caches_invisible (hN : N.Lawful) {c c' : N.Config ι}
    (hc : (N.swarm ι).procs.lts.Reachable c) {t : ι × Nat} {req : Request} {reply : Reply ω}
    {labels : List (N.Label ι)} (hserves : N.Serves t req reply c labels c')
    (hread : req.isRead = true) :
    ∃ db, N.StoreDuring t.1 db c (.inl (t, .call req) :: labels) c' ∧
      (N.body req : Rpc Tree ι _).eval (N.uncached db) = some reply ∧
      (∀ summary, reply = .summary summary → 0 < summary.height →
        db.consensusProofs[summary.height]? = some summary.proof ∧ summary.proof ≠ ∅) ∧
      ∀ height blk, req = .getBlock height → reply = .block (some blk) →
        ∀ c₁ c₂ n labels' reply', (N.swarm ι).procs.lts.Reaches c' c₁ →
          N.Serves (t.1, n) (.getBlock height) reply' c₁ labels' c₂ →
            reply' = .block (some blk) := by
  obtain ⟨db, hduring, heval⟩ := hserves.uncached hN hc hread
  refine ⟨db, hduring, heval, ?_, ?_⟩
  · rintro summary rfl hpos
    cases req with
    | getSummary =>
      refine proof_of_getSummary (ι := ι) hN.builds (hduring.chain hN hc) ?_ hpos
      obtain ⟨summary', hsummary, heq⟩ := Prog.eval_map_eq_some.mp heval
      cases heq
      exact hsummary
    | sendTx tx => cases hread
    | getLz4Blocks height sizeLimit => cases hread
    | _ =>
      obtain ⟨r, -, heq⟩ := Prog.eval_map_eq_some.mp heval
      cases heq
  · rintro height blk rfl rfl c₁ c₂ n labels' reply' hrun hserves'
    have hc' : (N.swarm ι).procs.lts.Reachable c₁ := by
      obtain ⟨c₀, hcall, hlabels, -⟩ := hserves
      exact (hc.tail hcall).trans ((Procs.reaches_of_run hlabels).trans hrun)
    obtain ⟨db', hduring', heval'⟩ := hserves'.uncached hN hc' rfl
    have hpre : db.IsPrefix db' := hduring.isPrefix hN hc hrun hduring'
    rw [eval_body_getBlock] at heval heval'
    cases heval'
    have hblk : db.block? height = some blk := by simpa using heval
    rw [hpre.block? hblk]

end NodeRpc

namespace Ledger

theorem rpc_lawful : rpc.Lawful where
  builds := ledger_builds
  blockLen_pos := wire_lawful.blockLen_pos

theorem swarmOn_init {ι : Type} [DecidableEq ι]
    {storage : ι → Procs.Config Nat (Shared Unsealed) (Call Sealed)}
    (h : ∀ i, (ledger.storage threeStakers).lts.Reachable (storage i)) :
    (rpc.swarm ι).procs.lts.init (swarmOn storage) :=
  ⟨⟨rfl, rfl, storage, h, rfl⟩, rfl⟩

theorem swarmAfter_reaches {ι : Type} [DecidableEq ι] {c : rpc.Config ι}
    {labels : List (rpc.Label ι)} (h : ((rpc.swarm ι).procs.run c labels).isSome) :
    (rpc.swarm ι).procs.lts.Reaches c (swarmAfter c labels) :=
  Procs.reaches_end h

theorem swarmAfter_guarded {ι : Type} [DecidableEq ι] {good : rpc.Config ι → rpc.Label ι → Prop}
    [∀ c label, Decidable (good c label)] {c : rpc.Config ι} {labels : List (rpc.Label ι)}
    (h : (Lts.runGuarded (rpc.swarm ι).procs.exec good c labels).isSome) :
    ((rpc.swarm ι).procs.lts.guard good).Reaches c (swarmAfter c labels) :=
  Procs.reaches_end_guarded h

/-- A handler that is called and gets its steps replies what can be read off its thread. -/
theorem serves_swarmAfter {ι : Type} [DecidableEq ι] {c : rpc.Config ι} {t : ι × Nat}
    {e : Surroundings ι} {req : Request} {steps : Nat}
    {reply : Reply (List Block × List ConsensusProof)}
    (hrun : ((rpc.swarm ι).procs.run c (handles t e req steps)).isSome)
    (hreply : ((swarmAfter c (handles t e req steps)).procs t).reply? = some (req, reply)) :
    rpc.Serves t req reply c (List.replicate steps (.inl (t, .step e)))
      (swarmAfter c (handles t e req steps)) := by
  obtain ⟨c', hc'⟩ := Option.isSome_iff_exists.mp hrun
  have hend : swarmAfter c (handles t e req steps) = c' := by
    unfold swarmAfter
    rw [hc']
    rfl
  rw [hend] at hreply ⊢
  obtain ⟨c₁, hcall, hsteps⟩ := Lts.run_uncons hc'
  exact ⟨c₁, hcall, hsteps, Thread.reply?_eq_some hreply⟩

/-- No time passes and there is nobody else. -/
def alone : Surroundings Unit := ⟨0, []⟩

/-- A node with one block that has been asked for its summary. -/
def askedOnce : rpc.Config Unit :=
  swarmAfter (swarmOn fun _ => oneBlock) (handles ((), 0) alone .getSummary 8)

theorem askedOnce_reachable : (rpc.swarm Unit).procs.lts.Reachable askedOnce :=
  ⟨_, swarmOn_init fun _ => oneBlock_reachable, swarmAfter_reaches (by decide +kernel)⟩

/-- The summary of the first block. -/
def firstSummary : StateSummary :=
  ⟨.custom 2, 1, (firstBlock 1).header, proofBy [1, 2, 3] (firstBlock 1)⟩

-- both lists of a batch can be compared
instance : DecidableEq (List Block × List ConsensusProof) := inferInstance

/-- The second time it is asked, the reply comes from the cache. -/
theorem caches_invisible_firstSummary :
    let steps : List (rpc.Label Unit) := List.replicate 4 (.inl (((), 1), .step alone))
    let c' := swarmAfter askedOnce (handles ((), 1) alone .getSummary 4)
    ∃ db, rpc.StoreDuring () db askedOnce (.inl (((), 1), .call .getSummary) :: steps) c' ∧
      (rpc.body .getSummary : Rpc _ Unit _).eval (rpc.uncached db) = some (.summary firstSummary) ∧
      db.consensusProofs[1]? = some firstSummary.proof := by
  intro steps c'
  have hserves : rpc.Serves ((), 1) .getSummary (.summary firstSummary) askedOnce steps c' :=
    serves_swarmAfter (by decide +kernel) (by decide +kernel)
  obtain ⟨db, hduring, heval, hproof, -⟩ :=
    NodeRpc.caches_invisible rpc_lawful askedOnce_reachable hserves rfl
  exact ⟨db, hduring, heval, (hproof firstSummary rfl Nat.one_pos).1⟩

end Ledger

end Melnode
