import Melnode.Rpc.Network

/-!
# What a handler reads

The store only grows, and every cache holds what some store held. A handler knows the stores it has
seen, one for each of its operations, each with the ones before it as prefixes (`Seen`). `N.reads`
is the protocol of the handlers: what an operation answers is read off the store at that moment,
what is put into a cache is read off a store that was seen, and a panic has a reason in one
(`PanicsAt`). `N.uncached` are the answers of a store to a handler without caches.
-/

namespace Melnode

open Lib

namespace NodeRpc

variable {Sealed Unsealed Tree ω ι : Type} (N : NodeRpc Sealed Unsealed Tree ω)

/-! ## Stores -/

/-- The block of a height abbreviated, and its proof. -/
def AbbrOf (db : Tables) (height : Nat) (summ : AbbrBlock × ConsensusProof) : Prop :=
  ∃ blk proof, db.block? height = some blk ∧ db.consensusProofs[height]? = some proof ∧
    summ = (N.abbreviate blk, proof)

/-- The summary of a height; that of the genesis state has no proof. -/
def SummaryOf (db : Tables) (height : Nat) (summary : StateSummary) : Prop :=
  height ≤ db.highestHeight ∧ ∃ state, N.melstf.stateAt N.genesis db height = .ok state ∧
    summary = ⟨N.network, height, N.melstf.header state, db.consensusProofs[height]?.getD ∅⟩

/-- The tree of the transactions of a height. -/
def TreeOf (db : Tables) (height : Nat) (tree : Tree) : Prop :=
  ∃ state empty, N.melstf.getState N.genesis db height = .ok (some state) ∧
    N.emptyTree = some empty ∧ tree = N.txTree empty state

/-- What an operation may answer when the tables are `db`. -/
def Answers (db : Tables) : (op : RpcOp Tree ι) → op.Res → Prop
  | .maxHeight, r => r = db.highestHeight
  | .cachedBlock height, r => ∀ blk, r = some blk → db.block? height = some blk
  | .blockRow height, r => r = db.block? height
  | .stakeset height, r => r = N.melstf.getStakeset N.genesis db height
  | .proofRow height, r => r = db.consensusProofs[height]?
  | .abbrBlockGet height, r => ∀ summ, r = some summ → N.AbbrOf db height summ
  | .summaryGet height, r => ∀ summary, r = some summary → N.SummaryOf db height summary
  | .coinSmtGet height, r => ∀ tree, r = some tree → N.TreeOf db height tree
  | _, _ => True

/-- The answers of tables that do not change to a handler that has no caches: the caches are empty
and take nothing. -/
def uncached (db : Tables) : (op : RpcOp Tree ι) → Option op.Res
  | .maxHeight => some db.highestHeight
  | .cachedBlock _ => some (none : Option Block)
  | .blockRow height => some (db.block? height)
  | .cacheBlock _ _ => some ()
  | .stakeset height => some (N.melstf.getStakeset N.genesis db height)
  | .proofRow height => some db.consensusProofs[height]?
  | .abbrBlockGet _ => some (none : Option (AbbrBlock × ConsensusProof))
  | .abbrBlockInsert _ _ => some ()
  | .summaryGet _ => some (none : Option StateSummary)
  | .summaryPush _ _ => some ()
  | .coinSmtGet _ => some (none : Option Tree)
  | .coinSmtPut _ _ => some ()
  | _ => none

section Grows

variable {N} {db db' : Tables} {height : Nat}

theorem AbbrOf.grows {summ : AbbrBlock × ConsensusProof} (h : N.AbbrOf db height summ)
    (hG : db.IsPrefix db') : N.AbbrOf db' height summ := by
  obtain ⟨blk, proof, hblk, hproof, rfl⟩ := h
  exact ⟨blk, proof, hG.block? hblk, hG.keeps.proofs hproof, rfl⟩

theorem SummaryOf.grows {summary : StateSummary} (h : N.SummaryOf db height summary)
    (hG : db.IsPrefix db') : N.SummaryOf db' height summary := by
  obtain ⟨hle, state, hstate, rfl⟩ := h
  refine ⟨Nat.le_trans hle hG.le, state, ?_, ?_⟩
  · rw [Melstf.stateAt_isPrefix hG hle]
    exact hstate
  · rw [hG.proof_eq hle]

theorem block_of_getState {state : Sealed}
    (h : N.melstf.getState N.genesis db height = .ok (some state)) :
    ∃ blk, db.block? height = some blk := by
  unfold Melstf.getState at h
  cases hblk : db.block? height with
  | none =>
    rw [hblk] at h
    cases h
  | some blk => exact ⟨blk, rfl⟩

theorem le_of_getState (hB : N.melstf.BuildsStates) (hchain : N.melstf.Chain N.genesis db)
    {state : Sealed} (h : N.melstf.getState N.genesis db height = .ok (some state)) :
    height ≤ db.highestHeight := by
  obtain ⟨blk, hblk⟩ := block_of_getState h
  exact ((hchain.wellFormed hB).block_le hblk).2

theorem TreeOf.grows (hB : N.melstf.BuildsStates) (hchain : N.melstf.Chain N.genesis db) {tree : Tree}
    (h : N.TreeOf db height tree) (hG : db.IsPrefix db') : N.TreeOf db' height tree := by
  obtain ⟨state, empty, hstate, hempty, rfl⟩ := h
  refine ⟨state, empty, ?_, hempty, rfl⟩
  rw [Melstf.getState_isPrefix hG (le_of_getState hB hchain hstate)]
  exact hstate

end Grows

/-! ## The protocol -/

/-- The stores a handler has seen, the last one first. -/
structure Seen where
  stores : List Tables
  chain : ∀ db ∈ stores, N.melstf.Chain N.genesis db
  sorted : stores.Pairwise fun later earlier => earlier.IsPrefix later

/-- Nothing seen. -/
def Seen.empty : N.Seen where
  stores := []
  chain _ h := absurd h List.not_mem_nil
  sorted := .nil

/-- The rebuilt stakes of a stored block are not the ones its header commits to. -/
def Mismatch (db : Tables) : Prop :=
  ∃ height blk, db.block? height = some blk ∧
    N.melstf.stakesHash (N.melstf.getStakeset N.genesis db height) ≠ blk.header.stakesHash

/-- A stored block and its proof are together longer than any memory. -/
def Oversized (db : Tables) : Prop :=
  ∃ height blk proof, db.block? height = some blk ∧ db.consensusProofs[height]? = some proof ∧
    2 ^ 63 ≤ N.wire.blockLen blk + N.wire.proofLen proof

/-- The reasons for a panic. -/
def PanicsAt (req : Request) (db : Tables) : RpcPanic → Prop
  | .todo => ∃ height key blk, req = .getSmtBranch height .stakes key ∧ db.block? height = some blk
  | .unwrap => N.emptyTree = none
  | .storage .stakesHashMismatch => N.Mismatch db
  | .storage .overflow =>
    (∃ height sizeLimit, req = .getLz4Blocks height sizeLimit) ∧ N.Oversized db
  | _ => False

/-- The operations a handler may perform on what it has seen. -/
def Allowed (req : Request) (g : N.Seen) : RpcOp Tree ι → Prop
  | .abbrBlockInsert height summ => ∃ db ∈ g.stores, N.AbbrOf db height summ
  | .summaryPush height summary => ∃ db ∈ g.stores, N.SummaryOf db height summary
  | .coinSmtPut height tree => ∃ db ∈ g.stores, N.TreeOf db height tree
  | .panic site => ∃ db ∈ g.stores, N.PanicsAt req db site
  | .spin => False
  | _ => True

/-- **The protocol of a handler**: each operation is performed on one more store. -/
def reads (req : Request) : Proto (RpcOp Tree ι) RpcOp.Res N.Seen where
  pre := N.Allowed req
  post g op r g' := ∃ db, g'.stores = db :: g.stores ∧ N.Answers db op r

/-- `db` was seen after all of `g`, and `g'` knows it. -/
structure Later (g g' : N.Seen) (db : Tables) : Prop where
  mem : db ∈ g'.stores
  subset : g.stores ⊆ g'.stores
  isPrefix : ∀ d ∈ g.stores, d.IsPrefix db

section Rules

variable {N} {req : Request} {α : Type}

theorem Later.of_cons {g g' : N.Seen} {db : Tables} (h : g'.stores = db :: g.stores) :
    N.Later g g' db := by
  have hsorted := g'.sorted
  rw [h] at hsorted
  refine ⟨?_, ?_, (List.pairwise_cons.mp hsorted).1⟩
  · rw [h]
    exact List.mem_cons_self
  · rw [h]
    exact List.subset_cons_self db g.stores

theorem Later.trans {g g₁ g₂ : N.Seen} {d db : Tables} (h₁ : N.Later g g₁ d)
    (h₂ : N.Later g₁ g₂ db) : N.Later g g₂ db :=
  ⟨h₂.mem, List.Subset.trans h₁.subset h₂.subset, fun v hv => h₂.isPrefix v (h₁.subset hv)⟩

theorem Later.chain {g g' : N.Seen} {db : Tables} (h : N.Later g g' db) :
    N.melstf.Chain N.genesis db :=
  g'.chain db h.mem

/-- The rule of an operation. -/
theorem obeys_op {o : RpcOp Tree ι} {f : o.Res → Rpc Tree ι α} {Q : α → N.Seen → Prop} {g : N.Seen}
    (hpre : N.Allowed req g o)
    (hpost : ∀ r g' db, N.Later g g' db → N.Answers db o r → (f r).Obeys (N.reads req) Q g') :
    (Rpc.op o >>= f).Obeys (N.reads req) Q g := by
  refine Prog.Obeys.bind (Prog.obeys_perform (Q := fun r g' =>
    ∃ db, N.Later g g' db ∧ N.Answers db o r) hpre ?_) ?_
  · rintro r g' ⟨db, hcons, hans⟩
    exact ⟨db, Later.of_cons hcons, hans⟩
  · rintro r g' ⟨db, hlater, hans⟩
    exact hpost r g' db hlater hans

/-- `get_block` reads one store. -/
theorem getBlock_obeys {height : Nat} {g : N.Seen} :
    (getBlock height : Rpc Tree ι (Option Block)).Obeys (N.reads req)
      (fun r g' => ∃ db, N.Later g g' db ∧ db.block? height = r) g := by
  refine obeys_op trivial fun (cached : Option Block) g₁ d₁ h₁ hans => ?_
  cases cached with
  | some val => exact ⟨d₁, h₁, hans val rfl⟩
  | none =>
    refine obeys_op trivial fun (res : Option Block) g₂ d₂ h₂ hrow => ?_
    have hrow' : res = d₂.block? height := hrow
    cases res with
    | some block =>
      refine obeys_op trivial fun _ g₃ d₃ h₃ _ => ?_
      exact ⟨d₂, ⟨h₃.subset h₂.mem, (h₁.trans (h₂.trans h₃)).subset, (h₁.trans h₂).isPrefix⟩,
        hrow'.symm⟩
    | none => exact ⟨d₂, h₁.trans h₂, hrow'.symm⟩

/-- `get_state` reads as if from one store. -/
theorem getState_obeys {height : Nat} {g : N.Seen} :
    (N.getState height : Rpc Tree ι (Option Sealed)).Obeys (N.reads req)
      (fun r g' => ∃ db, N.Later g g' db ∧ N.melstf.getState N.genesis db height = .ok r) g := by
  refine Prog.Obeys.bind getBlock_obeys ?_
  rintro block g₁ ⟨d₁, h₁, hblk⟩
  cases block with
  | none =>
    refine ⟨d₁, h₁, ?_⟩
    unfold Melstf.getState
    rw [hblk]
  | some block =>
    refine obeys_op trivial fun (stakeset : StakeSet) g₂ d₂ h₂ hans => ?_
    have hstakes : stakeset = N.melstf.getStakeset N.genesis d₂ height := hans
    have hblk₂ : d₂.block? height = some block := (h₂.isPrefix d₁ h₁.mem).block? hblk
    have hget : N.melstf.getState N.genesis d₂ height =
        (N.melstf.rebuildState block stakeset).map some := by
      unfold Melstf.getState
      rw [hblk₂, hstakes]
    cases hs : N.melstf.rebuildState block stakeset with
    | ok state =>
      rw [hs] at hget
      exact ⟨d₂, h₁.trans h₂, hget⟩
    | error site =>
      unfold Melstf.rebuildState at hs
      split at hs
      · cases hs
      · next hne =>
        cases hs
        rw [hstakes] at hne
        exact ⟨⟨d₂, h₂.mem, height, block, hblk₂, hne⟩, fun r => nomatch r⟩

/-- `highest_state` reads as if from the store of its first read. -/
theorem highestState_obeys (hB : N.melstf.BuildsStates) {g : N.Seen} :
    (N.highestState : Rpc Tree ι Sealed).Obeys (N.reads req)
      (fun s g' => ∃ db ∈ g'.stores, N.melstf.stateAt N.genesis db db.highestHeight = .ok s) g := by
  refine obeys_op trivial fun (height : Nat) g₁ d₁ h₁ hans => ?_
  obtain rfl : height = d₁.highestHeight := hans
  by_cases hpos : 0 < d₁.highestHeight
  · simp only [hpos, if_true]
    refine getState_obeys.bind ?_
    rintro state g₂ ⟨d₂, h₂, hget⟩
    have hpre := h₂.isPrefix d₁ h₁.mem
    rw [Melstf.getState_isPrefix hpre (Nat.le_refl _)] at hget
    cases state with
    | some state =>
      refine ⟨d₁, h₂.subset h₁.mem, ?_⟩
      unfold Melstf.stateAt
      rw [if_pos hpos, hget]
    | none =>
      -- a stored height has a block
      obtain ⟨blk, hblk⟩ := (h₁.chain.wellFormed hB).block_isSome hpos (Nat.le_refl _)
      unfold Melstf.getState Melstf.rebuildState at hget
      rw [hblk] at hget
      dsimp only at hget
      split at hget <;> cases hget
  · simp only [hpos, if_false]
    refine ⟨d₁, h₁.mem, ?_⟩
    unfold Melstf.stateAt
    rw [if_neg hpos]

/-- `get_coin_tree` reads as if from one store, cached or not. -/
theorem getCoinTree_obeys (hB : N.melstf.BuildsStates) {height : Nat} {g : N.Seen} :
    (N.getCoinTree height : Rpc Tree ι (Option Tree)).Obeys (N.reads req)
      (fun r g' => ∃ db, N.Later g g' db ∧ match r with
        | some tree => N.TreeOf db height tree
        | none => N.melstf.getState N.genesis db height = .ok none) g := by
  refine obeys_op trivial fun (otree : Option Tree) g₁ d₁ h₁ hans => ?_
  cases otree with
  | some v => exact ⟨d₁, h₁, hans v rfl⟩
  | none =>
    refine getState_obeys.bind ?_
    rintro state g₂ ⟨d₂, h₂, hget⟩
    cases state with
    | none => exact ⟨d₂, h₁.trans h₂, hget⟩
    | some state =>
      cases hempty : N.emptyTree with
      | none =>
        exact ⟨⟨d₂, h₂.mem, hempty⟩, fun r => nomatch r⟩
      | some empty =>
        have htree : N.TreeOf d₂ height (N.txTree empty state) := ⟨state, empty, hget, hempty, rfl⟩
        refine obeys_op ⟨d₂, h₂.mem, htree⟩ fun _ g₃ d₃ h₃ _ => ?_
        exact ⟨d₃, h₁.trans (h₂.trans h₃), htree.grows hB h₂.chain (h₃.isPrefix d₂ h₂.mem)⟩

end Rules

end NodeRpc

end Melnode
