import Melnode.Lib.Count
import Melnode.Rpc.Network

/-!
# What a handler gossips

A handler knows whether its transaction has been accepted and how many copies it may still send
(`NodeRpc.gossip`): it has one transaction accepted at most, and sends 16 copies at most of that one
and none before. The verbs other than `send_tx` do neither (`RpcOp.Quiet`).
-/

namespace Melnode

open Lib

variable {Sealed Unsealed Tree ω ι : Type}

/-- The transaction an operation applies. -/
def RpcOp.applied? : RpcOp Tree ι → Option Transaction
  | .applyTransaction tx => some tx
  | _ => none

/-- Neither an operation of the mempool nor a copy that is sent. -/
def RpcOp.Quiet : RpcOp Tree ι → Prop
  | .applyTransaction _ => False
  | .forward _ _ => False
  | _ => True

namespace NodeRpc

variable (N : NodeRpc Sealed Unsealed Tree ω)

/-- **The protocol of gossip**: what is known is the hash of the accepted transaction and the number
of copies that may still be sent. -/
def gossip : Proto (RpcOp Tree ι) RpcOp.Res (Option (TxHash × Nat)) where
  pre
    | g, .applyTransaction _ => g = none
    | g, .forward _ tx => ∃ n, g = some (N.melstf.hashNosigs tx, n + 1)
    | _, _ => True
  post
    | g, .applyTransaction tx, res, g' =>
      match (res : Except MempoolError Unit) with
      | .ok () => g' = some (N.melstf.hashNosigs tx, 16)
      | .error _ => g' = g
    | g, .forward _ _, _, g' => ∀ hash n, g = some (hash, n + 1) → g' = some (hash, n)
    | g, _, _, g' => g' = g

section Quiet

variable {N} {α : Type} {g : Option (TxHash × Nat)}

theorem gossip_quiet {op : RpcOp Tree ι} (h : op.Quiet) :
    N.gossip.pre g op ∧ ∀ r g', N.gossip.post g op r g' ↔ g' = g := by
  cases op with
  | applyTransaction tx => exact absurd h id
  | forward neigh tx => exact absurd h id
  | _ => exact ⟨trivial, fun _ _ => Iff.rfl⟩

/-- The rule of a quiet operation. -/
theorem gossip_op {o : RpcOp Tree ι} {f : o.Res → Rpc Tree ι α}
    {Q : α → Option (TxHash × Nat) → Prop} (ho : o.Quiet)
    (h : ∀ r, (f r).Obeys N.gossip Q g) : (Rpc.op o >>= f).Obeys N.gossip Q g := by
  obtain ⟨hpre, hpost⟩ := gossip_quiet (N := N) (g := g) ho
  refine ⟨hpre, fun r g' hg' => ?_⟩
  rw [(hpost r g').mp hg']
  exact h r

/-- A quiet operation and what comes after it. -/
theorem quiet_op {o : RpcOp Tree ι} {f : o.Res → Rpc Tree ι α} (ho : o.Quiet)
    (h : ∀ r, (f r).All RpcOp.Quiet) : (Rpc.op o >>= f).All RpcOp.Quiet :=
  ⟨ho, h⟩

theorem quiet_panic {site : RpcPanic} : (Rpc.panic site : Rpc Tree ι α).All RpcOp.Quiet :=
  ⟨trivial, fun r => nomatch r⟩

theorem quiet_add64 {a b : Nat} : (Rpc.add64 a b : Rpc Tree ι Nat).All RpcOp.Quiet := by
  unfold Rpc.add64
  split
  · exact trivial
  · exact quiet_panic

theorem getBlock_quiet {height : Nat} :
    (getBlock height : Rpc Tree ι (Option Block)).All RpcOp.Quiet := by
  refine quiet_op trivial fun (cached : Option Block) => ?_
  cases cached with
  | some val => exact trivial
  | none =>
    refine quiet_op trivial fun (res : Option Block) => ?_
    cases res with
    | some block => exact quiet_op trivial fun _ => trivial
    | none => exact trivial

theorem getState_quiet {height : Nat} :
    (N.getState height : Rpc Tree ι (Option Sealed)).All RpcOp.Quiet := by
  refine getBlock_quiet.bind fun block => ?_
  cases block with
  | none => exact trivial
  | some block =>
    refine quiet_op trivial fun (stakeset : StakeSet) => ?_
    cases N.melstf.rebuildState block stakeset with
    | ok state => exact trivial
    | error site => exact quiet_panic

theorem highestState_quiet : (N.highestState : Rpc Tree ι Sealed).All RpcOp.Quiet := by
  refine quiet_op trivial fun (height : Nat) => ?_
  split
  · refine getState_quiet.bind fun state => ?_
    cases state with
    | some state => exact trivial
    | none => exact quiet_panic
  · exact trivial

theorem getCoinTree_quiet {height : Nat} :
    (N.getCoinTree height : Rpc Tree ι (Option Tree)).All RpcOp.Quiet := by
  refine quiet_op trivial fun (otree : Option Tree) => ?_
  cases otree with
  | some v => exact trivial
  | none =>
    refine getState_quiet.bind fun state => ?_
    cases state with
    | none => exact trivial
    | some state =>
      cases N.emptyTree with
      | none => exact quiet_panic
      | some tree => exact quiet_op trivial fun _ => trivial

theorem getAbbrBlock_quiet {height : Nat} :
    (N.getAbbrBlock height : Rpc Tree ι _).All RpcOp.Quiet := by
  refine quiet_op trivial fun (c : Option (AbbrBlock × ConsensusProof)) => ?_
  cases c with
  | some c => exact trivial
  | none =>
    refine getBlock_quiet.bind fun block => ?_
    cases block with
    | none => exact trivial
    | some block =>
      refine quiet_op trivial fun (proof : Option ConsensusProof) => ?_
      cases proof with
      | none => exact trivial
      | some proof => exact quiet_op trivial fun _ => trivial

theorem getSummary_quiet : (N.getSummary : Rpc Tree ι _).All RpcOp.Quiet := by
  refine highestState_quiet.bind fun highest => ?_
  refine quiet_op trivial fun (res : Option StateSummary) => ?_
  cases res with
  | some res => exact trivial
  | none =>
    refine quiet_op trivial fun (proof : Option ConsensusProof) => ?_
    exact quiet_op trivial fun _ => trivial

theorem batches_quiet {sizeLimit : Nat} : ∀ {fuel height totalCount : Nat} {accum : List Block}
    {proofAccum : List ConsensusProof},
    (N.batches sizeLimit fuel height totalCount accum proofAccum : Rpc Tree ι _).All
      RpcOp.Quiet := by
  intro fuel
  induction fuel with
  | zero => exact ⟨trivial, fun r => nomatch r⟩
  | succ fuel ih =>
    intro height totalCount accum proofAccum
    unfold batches
    split
    · refine getBlock_quiet.bind fun block => ?_
      cases block with
      | none =>
        dsimp only
        split <;> exact trivial
      | some block =>
        refine quiet_op trivial fun (proof : Option ConsensusProof) => ?_
        cases proof with
        | none => exact ih
        | some proof =>
          exact quiet_add64.bind fun _ => quiet_add64.bind fun _ => quiet_add64.bind fun _ => ih
    · exact trivial

theorem getLz4Blocks_quiet {height sizeLimit : Nat} :
    (N.getLz4Blocks height sizeLimit : Rpc Tree ι _).All RpcOp.Quiet := by
  refine batches_quiet.bind fun lists => ?_
  cases lists <;> exact trivial

theorem getSmtBranch_quiet {height : Nat} {elem : Substate} {key : HashVal} :
    (N.getSmtBranch height elem key : Rpc Tree ι _).All RpcOp.Quiet := by
  refine getState_quiet.bind fun state => ?_
  cases state with
  | none => exact trivial
  | some state =>
    refine getCoinTree_quiet.bind fun ctree => ?_
    cases ctree with
    | none => exact trivial
    | some ctree =>
      cases elem with
      | stakes => exact quiet_panic
      | _ => exact trivial

theorem getStakersRaw_quiet {height : Nat} :
    (N.getStakersRaw height : Rpc Tree ι _).All RpcOp.Quiet := by
  refine getState_quiet.bind fun state => ?_
  cases state <;> exact trivial

end Quiet

section Sends

variable {N} {tx : Transaction}

/-- No more copies than neighbours. -/
theorem forwards_gossip : ∀ {neighs : List ι} {n : Nat}, neighs.length ≤ n →
    (forwards tx neighs : Rpc Tree ι Unit).Obeys N.gossip (fun _ _ => True)
      (some (N.melstf.hashNosigs tx, n)) := by
  intro neighs
  induction neighs with
  | nil => exact fun _ => trivial
  | cons neigh rest ih =>
    intro n hlen
    obtain ⟨m, rfl⟩ : ∃ m, n = m + 1 := ⟨n - 1, by rw [List.length_cons] at hlen; omega⟩
    refine ⟨⟨m, rfl⟩, fun r g' hpost => ?_⟩
    rw [hpost _ _ rfl]
    exact ih (Nat.le_of_succ_le_succ hlen)

/-- **`send_tx` forwards only what was accepted**, once and to 16 neighbours at most. -/
theorem sendUnseen_gossip :
    (N.sendUnseen tx : Rpc Tree ι _).Obeys N.gossip (fun _ _ => True) none := by
  refine gossip_op trivial fun _ => ?_
  refine ⟨rfl, fun (res : Except MempoolError Unit) g' hpost => ?_⟩
  cases res with
  | error e => exact trivial
  | ok u =>
    obtain rfl : g' = some (N.melstf.hashNosigs tx, 16) := hpost
    have hlength : 10 ≤ (hexText (N.melstf.hashNosigs tx)).length := by
      rw [length_hexText]
      decide
    simp only [Rpc.sliceTo, hlength, if_true, Prog.pure_eq, Prog.ret_bind]
    refine gossip_op trivial fun (routes : List ι) => ?_
    exact (forwards_gossip (List.length_take_le 16 routes)).bind fun _ _ _ => trivial

theorem sendTx_gossip : (N.sendTx tx : Rpc Tree ι _).Obeys N.gossip (fun _ _ => True) none := by
  refine gossip_op trivial fun (val : Option Nat) => ?_
  cases val with
  | none => exact sendUnseen_gossip
  | some elapsed =>
    dsimp only
    split
    · exact trivial
    · exact sendUnseen_gossip

/-- **Every handler keeps to the protocol of gossip**, whatever it is asked. -/
theorem body_gossip (req : Request) :
    (N.body req : Rpc Tree ι (Reply ω)).Obeys N.gossip (fun _ _ => True) none := by
  have hquiet : ∀ {p : Rpc Tree ι (Reply ω)}, p.All RpcOp.Quiet →
      p.Obeys N.gossip (fun _ _ => True) none :=
    fun h => (h.obeys fun op hop => ⟨(gossip_quiet hop).1,
      fun r g' => ((gossip_quiet hop).2 r g').mp⟩).mono fun _ _ _ => trivial
  cases req with
  | sendTx tx => exact sendTx_gossip.map
  | getAbbrBlock height => exact hquiet getAbbrBlock_quiet.map
  | getSummary => exact hquiet getSummary_quiet.map
  | getBlock height => exact hquiet getBlock_quiet.map
  | getLz4Blocks height sizeLimit => exact hquiet getLz4Blocks_quiet.map
  | getSmtBranch height elem key => exact hquiet getSmtBranch_quiet.map
  | getStakersRaw height => exact hquiet getStakersRaw_quiet.map

end Sends

end NodeRpc

end Melnode
