import Melnode.Rpc.Reads

/-!
# What each verb replies

A handler that has caches replies what it would reply without them on one of the stores it has seen
(`body_obeys`). For `get_abbr_block` that is the store of its last read, for `get_summary` the store
whose height it read first.
-/

namespace Melnode

open Lib

namespace NodeRpc

variable {Sealed Unsealed Tree ω ι : Type} (N : NodeRpc Sealed Unsealed Tree ω)

/-! ## Without caches -/

section Uncached

variable {N} {db : Tables} {height : Nat}

theorem eval_getBlock :
    (getBlock height : Rpc Tree ι (Option Block)).eval (N.uncached db) =
      some (db.block? height) := by
  simp only [getBlock, Rpc.op, Prog.perform, Prog.call_bind, Prog.ret_bind, Prog.eval_call, uncached,
    Option.bind_some]
  cases db.block? height <;> rfl

theorem eval_body_getBlock : (N.body (.getBlock height) : Rpc Tree ι (Reply ω)).eval
    (N.uncached db) = some (.block (db.block? height)) := by
  unfold body
  rw [Prog.eval_map, eval_getBlock]
  rfl

theorem eval_getState : (N.getState height : Rpc Tree ι (Option Sealed)).eval (N.uncached db) =
    (N.melstf.getState N.genesis db height).toOption := by
  simp only [getState, Prog.eval_bind, eval_getBlock, Option.bind_some]
  unfold Melstf.getState
  cases db.block? height with
  | none => rfl
  | some blk =>
    simp only [Rpc.op, Prog.perform, Prog.call_bind, Prog.ret_bind, Prog.eval_call, uncached,
      Option.bind_some]
    cases N.melstf.rebuildState blk (N.melstf.getStakeset N.genesis db height) <;> rfl

theorem eval_highestState : (N.highestState : Rpc Tree ι Sealed).eval (N.uncached db) =
    (N.melstf.highestState N.genesis db).toOption := by
  simp only [highestState, Rpc.op, Prog.perform, Prog.call_bind, Prog.ret_bind, Prog.eval_call,
    uncached, Option.bind_some]
  unfold Melstf.highestState Melstf.stateAt
  split
  · simp only [Prog.eval_bind, eval_getState]
    cases N.melstf.getState N.genesis db db.highestHeight with
    | error site => rfl
    | ok state => cases state <;> rfl
  · rfl

theorem eval_getAbbrBlock : (N.getAbbrBlock height : Rpc Tree ι _).eval (N.uncached db) =
    some ((db.block? height).bind fun blk =>
      db.consensusProofs[height]?.map fun proof => (N.abbreviate blk, proof)) := by
  simp only [getAbbrBlock, Rpc.op, Prog.perform, Prog.call_bind, Prog.ret_bind, Prog.eval_call,
    Prog.eval_bind, eval_getBlock, uncached, Option.bind_some]
  cases db.block? height with
  | none => rfl
  | some blk =>
    simp only [Prog.eval_call, uncached, Option.bind_some]
    cases db.consensusProofs[height]? <;> rfl

theorem eval_getSummary {state : Sealed} (h : N.melstf.highestState N.genesis db = .ok state) :
    (N.getSummary : Rpc Tree ι _).eval (N.uncached db) =
      some ⟨N.network, (N.melstf.header state).height, N.melstf.header state,
        db.consensusProofs[(N.melstf.header state).height]?.getD ∅⟩ := by
  simp only [getSummary, Prog.eval_bind, eval_highestState, h, Except.toOption, Option.bind_some,
    Rpc.op, Prog.perform, Prog.call_bind, Prog.ret_bind, Prog.eval_call, uncached, Prog.pure_eq,
    Prog.eval_ret]

/-- Without caches too, a summary carries the proof stored for its height. -/
theorem proof_of_getSummary (hB : N.melstf.BuildsStates) (hchain : N.melstf.Chain N.genesis db)
    {summary : StateSummary}
    (h : (N.getSummary : Rpc Tree ι _).eval (N.uncached db) = some summary)
    (hpos : 0 < summary.height) :
    db.consensusProofs[summary.height]? = some summary.proof ∧ summary.proof ≠ ∅ := by
  have hwf := hchain.wellFormed hB
  cases hstate : N.melstf.highestState N.genesis db with
  | error site =>
    simp only [getSummary, Prog.eval_bind, eval_highestState, hstate, Except.toOption,
      Option.bind_none, reduceCtorEq] at h
  | ok state =>
    rw [eval_getSummary hstate] at h
    cases h
    have hheight : (N.melstf.header state).height = db.highestHeight :=
      hwf.stateAt_height hB hstate
    obtain ⟨blk, hblk⟩ := hwf.block_isSome hpos (Nat.le_of_eq hheight)
    obtain ⟨proof, hproof⟩ := hwf.proof_of_block hblk
    simp only [hproof, Option.getD_some, true_and]
    exact hwf.proof_ne_empty hproof

theorem eval_getCoinTree {state : Sealed} {empty : Tree}
    (h : N.melstf.getState N.genesis db height = .ok (some state))
    (hempty : N.emptyTree = some empty) :
    (N.getCoinTree height : Rpc Tree ι _).eval (N.uncached db) =
      some (some (N.txTree empty state)) := by
  simp only [getCoinTree, Rpc.op, Prog.perform, Prog.call_bind, Prog.ret_bind, Prog.eval_call,
    Prog.eval_bind, eval_getState, h, hempty, uncached, Except.toOption, Option.bind_some,
    Prog.pure_eq, Prog.eval_ret]

end Uncached

/-! ## With caches -/

section Cached

variable {N} {req : Request} {height : Nat} {g : N.Seen}

/-- `get_abbr_block` replies what the store of its last read gives. -/
theorem getAbbrBlock_obeys : (N.getAbbrBlock height : Rpc Tree ι _).Obeys (N.reads req)
    (fun r g' => ∃ db ∈ g'.stores,
      (N.getAbbrBlock height : Rpc Tree ι _).eval (N.uncached db) = some r) g := by
  refine obeys_op trivial fun (c : Option (AbbrBlock × ConsensusProof)) g₁ d₁ h₁ hans => ?_
  cases c with
  | some c =>
    obtain ⟨blk, proof, hblk, hproof, rfl⟩ := hans c rfl
    refine ⟨d₁, h₁.mem, ?_⟩
    rw [eval_getAbbrBlock, hblk, hproof]
    rfl
  | none =>
    refine getBlock_obeys.bind ?_
    rintro block g₂ ⟨d₂, h₂, hblk⟩
    cases block with
    | none =>
      refine ⟨d₂, h₂.mem, ?_⟩
      rw [eval_getAbbrBlock, hblk]
      rfl
    | some block =>
      refine obeys_op trivial fun (proof : Option ConsensusProof) g₃ d₃ h₃ hans₃ => ?_
      have hproof : proof = d₃.consensusProofs[height]? := hans₃
      have hblk₃ : d₃.block? height = some block := (h₃.isPrefix d₂ h₂.mem).block? hblk
      cases proof with
      | none =>
        refine ⟨d₃, h₃.mem, ?_⟩
        rw [eval_getAbbrBlock, hblk₃, ← hproof]
        rfl
      | some proof =>
        have habbr : N.AbbrOf d₃ height (N.abbreviate block, proof) :=
          ⟨block, proof, hblk₃, hproof.symm, rfl⟩
        refine obeys_op ⟨d₃, h₃.mem, habbr⟩ fun _ g₄ d₄ h₄ _ => ?_
        refine ⟨d₃, h₄.subset h₃.mem, ?_⟩
        rw [eval_getAbbrBlock, hblk₃, ← hproof]
        rfl

/-- `get_summary` replies what the store of its first read gives. -/
theorem getSummary_obeys (hB : N.melstf.BuildsStates) :
    (N.getSummary : Rpc Tree ι _).Obeys (N.reads req)
      (fun r g' => ∃ db ∈ g'.stores, N.SummaryOf db r.height r ∧
        (N.getSummary : Rpc Tree ι _).eval (N.uncached db) = some r) g := by
  refine (highestState_obeys hB).bind ?_
  rintro state g₁ ⟨d, hd, hstate⟩
  have heval : (N.getSummary : Rpc Tree ι _).eval (N.uncached d) = _ := eval_getSummary hstate
  have hheight : (N.melstf.header state).height = d.highestHeight :=
    ((g₁.chain d hd).wellFormed hB).stateAt_height hB hstate
  rw [← hheight] at hstate
  have hle : (N.melstf.header state).height ≤ d.highestHeight := Nat.le_of_eq hheight
  have hsummary : N.SummaryOf d (N.melstf.header state).height
      ⟨N.network, (N.melstf.header state).height, N.melstf.header state,
        d.consensusProofs[(N.melstf.header state).height]?.getD ∅⟩ := ⟨hle, state, hstate, rfl⟩
  refine obeys_op trivial fun (res : Option StateSummary) g₂ d₂ h₂ hans => ?_
  have hpre := h₂.isPrefix d hd
  cases res with
  | some res =>
    -- the entry for the height says the same, whenever it was made
    obtain ⟨-, state', hstate', rfl⟩ := hans res rfl
    rw [Melstf.stateAt_isPrefix hpre hle, hstate] at hstate'
    cases hstate'
    rw [hpre.proof_eq hle]
    exact ⟨d, h₂.subset hd, hsummary, heval⟩
  | none =>
    refine obeys_op trivial fun (proof : Option ConsensusProof) g₃ d₃ h₃ hans₃ => ?_
    have hpre₃ := h₃.isPrefix d (h₂.subset hd)
    have hproof : proof = d₃.consensusProofs[(N.melstf.header state).height]? := hans₃
    rw [hpre₃.proof_eq hle] at hproof
    subst hproof
    refine obeys_op ⟨d, h₃.subset (h₂.subset hd), hsummary⟩ fun _ g₄ d₄ h₄ _ => ?_
    exact ⟨d, h₄.subset (h₃.subset (h₂.subset hd)), hsummary, heval⟩

/-- `get_smt_branch` replies what the store of its last read gives. -/
theorem getSmtBranch_obeys (hB : N.melstf.BuildsStates)
    {elem : Substate} {key : HashVal} :
    (N.getSmtBranch height elem key : Rpc Tree ι _).Obeys (N.reads (.getSmtBranch height elem key))
      (fun r g' => ∃ db ∈ g'.stores,
        (N.getSmtBranch height elem key : Rpc Tree ι _).eval (N.uncached db) = some r) g := by
  refine getState_obeys.bind ?_
  rintro state g₁ ⟨d₁, h₁, hget₁⟩
  cases state with
  | none =>
    refine ⟨d₁, h₁.mem, ?_⟩
    simp only [getSmtBranch, Prog.eval_bind, eval_getState, hget₁, Except.toOption, Option.bind_some]
    rfl
  | some state =>
    refine (getCoinTree_obeys hB).bind ?_
    rintro ctree g₂ ⟨d₂, h₂, htree⟩
    have hget₂ : N.melstf.getState N.genesis d₂ height = .ok (some state) := by
      rw [Melstf.getState_isPrefix (h₂.isPrefix d₁ h₁.mem) (le_of_getState hB h₁.chain hget₁)]
      exact hget₁
    cases ctree with
    | none =>
      rw [hget₂] at htree
      cases htree
    | some ctree =>
      obtain ⟨state', empty, hstate', hempty', rfl⟩ := htree
      rw [hget₂] at hstate'
      cases hstate'
      cases elem with
      | stakes =>
        -- `todo!`, at a height that is stored
        obtain ⟨blk, hblk⟩ := block_of_getState hget₂
        exact ⟨⟨d₂, h₂.mem, height, key, blk, rfl, hblk⟩, fun r => Empty.elim r⟩
      | _ =>
        refine ⟨d₂, h₂.mem, ?_⟩
        simp only [getSmtBranch, Prog.eval_bind, eval_getState, hget₂, Except.toOption,
          Option.bind_some, eval_getCoinTree hget₂ hempty']
        rfl

/-- `get_stakers_raw` replies what the store of its last read gives. -/
theorem getStakersRaw_obeys : (N.getStakersRaw height : Rpc Tree ι _).Obeys (N.reads req)
    (fun r g' => ∃ db ∈ g'.stores,
      (N.getStakersRaw height : Rpc Tree ι _).eval (N.uncached db) = some r) g := by
  refine getState_obeys.bind ?_
  rintro state g₁ ⟨d₁, h₁, hget⟩
  cases state with
  | none =>
    refine ⟨d₁, h₁.mem, ?_⟩
    simp only [getStakersRaw, Prog.eval_bind, eval_getState, hget, Except.toOption,
      Option.bind_some]
    rfl
  | some state =>
    refine ⟨d₁, h₁.mem, ?_⟩
    simp only [getStakersRaw, Prog.eval_bind, eval_getState, hget, Except.toOption,
      Option.bind_some]
    rfl

theorem forwards_obeys {tx : Transaction} : ∀ {neighs : List ι} {g : N.Seen},
    (forwards tx neighs : Rpc Tree ι Unit).Obeys (N.reads req) (fun _ _ => True) g := by
  intro neighs
  induction neighs with
  | nil => exact trivial
  | cons neigh rest ih => exact obeys_op trivial fun _ g₁ _ _ _ => ih

theorem sendUnseen_obeys {tx : Transaction} : (N.sendUnseen tx : Rpc Tree ι _).Obeys (N.reads req)
    (fun _ _ => True) g := by
  refine obeys_op trivial fun _ g₁ _ _ _ => ?_
  refine obeys_op trivial fun (res : Except MempoolError Unit) g₂ _ _ _ => ?_
  cases res with
  | error e => exact trivial
  | ok u =>
    have hlength : 10 ≤ (hexText (N.melstf.hashNosigs tx)).length := by
      rw [length_hexText]
      decide
    simp only [Rpc.sliceTo, hlength, if_true, Prog.pure_eq, Prog.ret_bind]
    refine obeys_op trivial fun (routes : List ι) g₃ _ _ _ => ?_
    exact forwards_obeys.bind fun _ _ _ => trivial

theorem sendTx_obeys {tx : Transaction} : (N.sendTx tx : Rpc Tree ι _).Obeys (N.reads req)
    (fun _ _ => True) g := by
  refine obeys_op trivial fun (val : Option Nat) g₁ _ _ _ => ?_
  cases val with
  | none => exact sendUnseen_obeys
  | some elapsed =>
    dsimp only
    split
    · exact trivial
    · exact sendUnseen_obeys

end Cached

/-- What the handlers rely on: the state transition, and that the encoding of a block is not
empty. -/
structure Lawful : Prop where
  builds : N.melstf.BuildsStates
  blockLen_pos : ∀ blk, 0 < N.wire.blockLen blk

section Batches

variable {N} {req : Request}

/-- The rule of an addition that can overflow. -/
theorem obeys_add64 {α : Type} {a b : Nat} {f : Nat → Rpc Tree ι α} {Q : α → N.Seen → Prop}
    {g : N.Seen}
    (hoverflow : 2 ^ 64 ≤ a + b → N.Allowed req g (.panic (.storage .overflow) : RpcOp Tree ι))
    (hsum : (f (a + b)).Obeys (N.reads req) Q g) :
    (Rpc.add64 a b >>= f).Obeys (N.reads req) Q g := by
  unfold Rpc.add64
  split
  · exact hsum
  · next hlt => exact ⟨hoverflow (Nat.not_lt.mp hlt), fun r => nomatch r⟩

/-- **The loop of `get_lz4_blocks`** adds a block in every round, so it ends. -/
theorem batches_obeys (hN : N.Lawful)
    (hreq : ∃ height sizeLimit, req = .getLz4Blocks height sizeLimit) {sizeLimit : Nat}
    (hlimit : sizeLimit ≤ 10000000) :
    ∀ {fuel height totalCount : Nat} {accum : List Block} {proofAccum : List ConsensusProof}
      {g : N.Seen}, 0 < fuel → sizeLimit + 1 < fuel + totalCount →
      (N.batches sizeLimit fuel height totalCount accum proofAccum : Rpc Tree ι _).Obeys
        (N.reads req) (fun _ _ => True) g := by
  intro fuel
  induction fuel with
  | zero => exact fun h => absurd h (Nat.lt_irrefl 0)
  | succ fuel ih =>
    intro height totalCount accum proofAccum g _ hfuel
    unfold batches
    by_cases hroom : totalCount ≤ sizeLimit
    · rw [if_pos hroom]
      refine getBlock_obeys.bind ?_
      rintro block g₁ ⟨d₁, h₁, hblk⟩
      cases block with
      | none =>
        dsimp only
        split <;> exact trivial
      | some block =>
        refine obeys_op trivial fun (proof : Option ConsensusProof) g₂ d₂ h₂ hans => ?_
        have hwf := h₁.chain.wellFormed hN.builds
        have hproof : proof = d₂.consensusProofs[height]? := hans
        cases proof with
        | none =>
          -- both tables are written in one transaction
          obtain ⟨cproof, hstored⟩ := hwf.proof_of_block hblk
          rw [(h₂.isPrefix d₁ h₁.mem).keeps.proofs hstored] at hproof
          cases hproof
        | some proof =>
          have hpos := hN.blockLen_pos block
          have hblk₂ := (h₂.isPrefix d₁ h₁.mem).block? hblk
          have hoversized : 2 ^ 63 ≤ N.wire.blockLen block + N.wire.proofLen proof →
              N.Allowed req g₂ (.panic (.storage .overflow) : RpcOp Tree ι) :=
            fun hlong => ⟨d₂, h₂.mem, hreq, height, block, proof, hblk₂, hproof.symm, hlong⟩
          have hheight := Nat.le_trans (hwf.block_le hblk).2
            (h₁.chain.highestHeight_le_max hN.builds)
          unfold maxSqlHeight at hheight
          refine obeys_add64 (fun _ => hoversized (by omega)) ?_
          refine obeys_add64 (fun _ => hoversized (by omega)) ?_
          refine obeys_add64 (fun _ => by omega) ?_
          exact ih (by omega) (by omega)
    · rw [if_neg hroom]
      exact trivial

theorem getLz4Blocks_obeys (hN : N.Lawful) {height sizeLimit : Nat} {g : N.Seen} :
    (N.getLz4Blocks height sizeLimit : Rpc Tree ι _).Obeys
      (N.reads (.getLz4Blocks height sizeLimit)) (fun _ _ => True) g := by
  refine (batches_obeys hN ⟨height, sizeLimit, rfl⟩ (Nat.min_le_right _ _) (Nat.succ_pos _)
    (by omega)).bind ?_
  rintro lists g₁ -
  cases lists <;> exact trivial

/-- The reply of a verb that only reads: what its code gives without caches on a store that was
seen. -/
def Replied (N : NodeRpc Sealed Unsealed Tree ω) (ι : Type) (req : Request) (reply : Reply ω)
    (g : N.Seen) : Prop :=
  match req with
  | .sendTx _ => True
  | .getLz4Blocks _ _ => True
  | _ => ∃ db ∈ g.stores, (N.body req : Rpc Tree ι _).eval (N.uncached db) = some reply

/-- **Every handler keeps to its protocol**, whatever it is asked. -/
theorem body_obeys (hN : N.Lawful) (req : Request) (g : N.Seen) :
    (N.body req : Rpc Tree ι _).Obeys (N.reads req) (N.Replied ι req) g := by
  have heval : ∀ {α : Type} {p : Rpc Tree ι α} {f : α → Reply ω} {a : α} {g' : N.Seen},
      (∃ db ∈ g'.stores, p.eval (N.uncached db) = some a) →
      ∃ db ∈ g'.stores, (f <$> p).eval (N.uncached db) = some (f a) := by
    rintro α p f a g' ⟨db, hdb, heval⟩
    refine ⟨db, hdb, ?_⟩
    rw [Prog.eval_map, heval]
    rfl
  cases req with
  | sendTx tx => exact (sendTx_obeys.mono fun _ _ _ => trivial).map
  | getAbbrBlock height => exact (getAbbrBlock_obeys.mono fun _ _ h => heval h).map
  | getSummary =>
    refine ((getSummary_obeys hN.builds).mono fun _ _ h => heval ?_).map
    obtain ⟨db, hdb, -, h⟩ := h
    exact ⟨db, hdb, h⟩
  | getBlock height =>
    refine (getBlock_obeys.mono fun r _ h => heval ?_).map
    obtain ⟨db, hlater, rfl⟩ := h
    exact ⟨db, hlater.mem, eval_getBlock⟩
  | getLz4Blocks height sizeLimit =>
    exact ((getLz4Blocks_obeys hN).mono fun _ _ _ => trivial).map
  | getSmtBranch height elem key =>
    exact ((getSmtBranch_obeys hN.builds).mono fun _ _ h => heval h).map
  | getStakersRaw height => exact (getStakersRaw_obeys.mono fun _ _ h => heval h).map

end Batches

end NodeRpc

end Melnode
