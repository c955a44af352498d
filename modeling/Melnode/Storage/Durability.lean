import Melnode.Storage.Folder
import Melnode.Storage.Stakes

/-!
# What a crash leaves

`apply_block` flushes the forest before its transaction starts, so the nodes of every block that was
ever committed are durable (`FolderOk`), and the rows found after a crash are the rows up to some
height (`reopened_upTo`). Whether `get_state` works on them is up to the stakes in the blocks
(`crash_consistent_iff`).
-/

namespace Melnode

open Lib

namespace Melstf

variable {Sealed Unsealed Node : Type} {M : Melstf Sealed Unsealed} {genesis : GenesisConfig}
  {nodes : Header → Set Node}

/-! ## Opening -/

section Opening

theorem stakes_insertStake (db : Tables) (kv : TxHash × StakeDoc) (t : TxHash) :
    (db.insertStake kv).stakes[t]? =
      if kv.1 = t then db.stakes[t]?.or (some ⟨0, kv.2⟩) else db.stakes[t]? := by
  unfold Tables.insertStake
  simp only [Std.ExtTreeMap.getElem?_insertIfNew]
  by_cases hkey : kv.1 = t
  · subst hkey
    cases hrow : db.stakes[kv.1]? with
    | none => simp [Std.ExtTreeMap.mem_iff_isSome_getElem?, hrow]
    | some row => simp [Std.ExtTreeMap.mem_iff_isSome_getElem?, hrow]
  · simp [hkey]

/-- Inserting a genesis stake is part of what opening does anyway. -/
theorem opened_insertStake (db : Tables) {kv : TxHash × StakeDoc}
    (hkv : genesis.stakes[kv.1]? = some kv.2) :
    Tables.opened genesis (db.insertStake kv) = Tables.opened genesis db := by
  apply Tables.ext
  · rfl
  · rfl
  · apply Std.ExtTreeMap.ext_getElem?
    intro t
    unfold Tables.opened
    rw [Table.getElem?_insertMissing, Table.getElem?_insertMissing, stakes_insertStake]
    by_cases hkey : kv.1 = t
    · subst hkey
      rw [if_pos rfl, hkv]
      cases db.stakes[kv.1]? <;> rfl
    · rw [if_neg hkey]

/-- With all genesis stakes there, opening inserts nothing. -/
theorem opened_of_stakes {db : Tables}
    (h : ∀ t doc, genesis.stakes[t]? = some doc → t ∈ db.stakes) :
    Tables.opened genesis db = db := by
  apply Tables.ext
  · rfl
  · rfl
  · apply Std.ExtTreeMap.ext_getElem?
    intro t
    unfold Tables.opened
    rw [Table.getElem?_insertMissing]
    cases hdoc : genesis.stakes[t]? with
    | none => rw [Option.map_none, Option.or_none]
    | some doc =>
      have hmem : t ∈ db.stakes := h t doc hdoc
      obtain ⟨row, hrow⟩ :=
        Option.isSome_iff_exists.mp (Std.ExtTreeMap.mem_iff_isSome_getElem?.mp hmem)
      rw [hrow]
      rfl

end Opening

/-! ## The invariant -/

/-- The nodes of a call's block are where its next step needs them. -/
def CallNodes (nodes : Header → Set Node) (merkle durable : Set Node) (unflushed : List Nat)
    (i : Nat) : Call Sealed → Prop
  | .made blk _ .queued =>
    nodes blk.header ⊆ merkle ∧ (i ∉ unflushed → nodes blk.header ⊆ durable)
  | .made blk _ .running => nodes blk.header ⊆ durable
  | .made blk _ .orphan => nodes blk.header ⊆ durable
  | _ => True

/-- The nodes of every stored block are durable. -/
def RowNodes (nodes : Header → Set Node) (durable : Set Node) (db : Tables) : Prop :=
  ∀ h blk, db.block? h = some blk → nodes blk.header ⊆ durable

/-- What is known by what the process does. -/
def ProcessOk (M : Melstf Sealed Unsealed) (genesis : GenesisConfig) (nodes : Header → Set Node)
    (latest : Tables) (merkle durable : Set Node) : Process Sealed Unsealed → Prop
  | .closed => True
  | .opening stakes =>
    (∀ kv ∈ stakes, genesis.stakes[kv.1]? = some kv.2) ∧
      ∀ t doc, genesis.stakes[t]? = some doc → (t, doc) ∈ stakes ∨ t ∈ latest.stakes
  | .running c unflushed =>
    c.shared.db = latest ∧ M.SharedOk genesis c.shared ∧
      ∀ i, M.CallOk genesis c.shared i (c.procs i) ∧
        CallNodes nodes merkle durable unflushed i (c.procs i)

/-- The folder, at every moment. -/
structure FolderOk (M : Melstf Sealed Unsealed) (genesis : GenesisConfig)
    (nodes : Header → Set Node) (s : Folder Sealed Unsealed Node) : Prop where
  chain : ∀ db ∈ s.latest :: s.older, M.Chain genesis (Tables.opened genesis db)
  grows : (s.latest :: s.older).Pairwise fun later earlier =>
    (Tables.opened genesis earlier).IsPrefix (Tables.opened genesis later)
  rows : ∀ db ∈ s.latest :: s.older, RowNodes nodes s.durable db
  durable : s.durable ⊆ s.merkle
  process : M.ProcessOk genesis nodes s.latest s.merkle s.durable s.process

section Stable

variable {merkle merkle' durable durable' : Set Node} {unflushed unflushed' : List Nat}

/-- More nodes, and more calls that still have to flush, do not disturb a call. -/
theorem CallNodes.mono {i : Nat} {call : Call Sealed}
    (h : CallNodes nodes merkle durable unflushed i call) (hmerkle : merkle ⊆ merkle')
    (hdurable : durable ⊆ durable') (hunflushed : i ∈ unflushed → i ∈ unflushed') :
    CallNodes nodes merkle' durable' unflushed' i call := by
  cases call with
  | idle => trivial
  | made blk cproof phase =>
    cases phase with
    | queued =>
      exact ⟨h.1.trans hmerkle, fun hi => (h.2 fun hi' => hi (hunflushed hi')).trans hdurable⟩
    | running => exact Set.Subset.trans h hdurable
    | orphan => exact Set.Subset.trans h hdurable
    | _ => trivial

/-- A flush makes the nodes of every accepted block durable. -/
theorem CallNodes.flush {i : Nat} {call : Call Sealed}
    (h : CallNodes nodes merkle durable unflushed i call) :
    CallNodes nodes merkle (durable ∪ merkle) unflushed' i call := by
  cases call with
  | idle => trivial
  | made blk cproof phase =>
    cases phase with
    | queued => exact ⟨h.1, fun _ => h.1.trans Set.subset_union_right⟩
    | running => exact Set.Subset.trans h Set.subset_union_left
    | orphan => exact Set.Subset.trans h Set.subset_union_left
    | _ => trivial

theorem RowNodes.mono {db : Tables} (h : RowNodes nodes durable db)
    (hdurable : durable ⊆ durable') : RowNodes nodes durable' db :=
  fun k blk hblk => (h k blk hblk).trans hdurable

theorem RowNodes.insertBlock {db db' : Tables} {blk : Block} {cproof : ConsensusProof}
    (h : RowNodes nodes durable db) (hblk : nodes blk.header ⊆ durable)
    (hins : M.insertBlock db blk cproof = some db') : RowNodes nodes durable db' := by
  intro k b hb
  rw [WellFormed.block?_inserted (insertBlock_inserted hins)] at hb
  split at hb
  · cases hb
    exact hblk
  · exact h k b hb

/-- **The order of the two writes**: a call that has flushed only commits a block whose nodes are
durable. -/
theorem CallStep.flushed {sh sh' : Shared Unsealed} {i : Nat} {e : CallEvent}
    {call call' : Call Sealed} (hok : M.SharedOk genesis sh) (hcall : M.CallOk genesis sh i call)
    (hstep : M.CallStep genesis i sh e call sh' call') (hi : i ∉ unflushed)
    (hnodes : CallNodes nodes merkle durable unflushed i call)
    (hrows : RowNodes nodes durable sh.db)
    (haccept : e = .check → ∀ blk cproof s s', call = .made blk cproof (.checking (.done s)) →
      M.checkBlock s blk cproof = .ok s' → nodes blk.header ⊆ merkle' ∧ i ∈ unflushed') :
    RowNodes nodes durable sh'.db ∧ CallNodes nodes merkle' durable unflushed' i call' := by
  cases hstep with
  | invoke => exact ⟨hrows, trivial⟩
  | acquire => exact ⟨hrows, trivial⟩
  | readCheck _ hr =>
    obtain ⟨-, -, hdb, -⟩ := hr.ok hok hcall
    rw [hdb]
    exact ⟨hrows, trivial⟩
  | accept hcheck =>
    obtain ⟨hmerkle, hmem⟩ := haccept rfl _ _ _ _ rfl hcheck
    exact ⟨hrows, hmerkle, fun hnot => absurd hmem hnot⟩
  | reject => exact ⟨hrows, trivial⟩
  | panic => exact ⟨hrows, trivial⟩
  | start => exact ⟨hrows, hnodes.2 hi⟩
  | commit hins => exact ⟨hrows.insertBlock hnodes hins, trivial⟩
  | orphanCommit hins => exact ⟨hrows.insertBlock hnodes hins, trivial⟩
  | failQueued => exact ⟨hrows, trivial⟩
  | failRunning => exact ⟨hrows, trivial⟩
  | orphanFail => exact ⟨hrows, trivial⟩
  | readRebase _ hr =>
    obtain ⟨-, -, hdb, -⟩ := hr.ok hok hcall.1
    rw [hdb]
    exact ⟨hrows, trivial⟩
  | rebase => exact ⟨hrows, trivial⟩
  | dropWaiting => exact ⟨hrows, trivial⟩
  | dropRunning => exact ⟨hrows, hnodes⟩
  | dropChecking => exact ⟨hrows, trivial⟩
  | dropQueued => exact ⟨hrows, trivial⟩
  | dropRebasing => exact ⟨hrows, trivial⟩

end Stable

/-! ## Steps -/

section Steps

variable {s s' : Folder Sealed Unsealed Node}

theorem FolderOk.isPrefix_latest (hB : M.BuildsStates) (h : M.FolderOk genesis nodes s) :
    ∀ db ∈ s.latest :: s.older,
      (Tables.opened genesis db).IsPrefix (Tables.opened genesis s.latest) := by
  intro db hmem
  rcases List.mem_cons.mp hmem with rfl | hold
  · exact ((h.chain _ List.mem_cons_self).wellFormed hB).isPrefix_refl
  · exact (List.pairwise_cons.mp h.grows).1 db hold

/-- A transaction committed on top of the latest tables. -/
theorem FolderOk.push (hB : M.BuildsStates) (h : M.FolderOk genesis nodes s) {db : Tables}
    {merkle durable : Set Node} {process : Process Sealed Unsealed}
    (hchain : M.Chain genesis (Tables.opened genesis db))
    (hpre : (Tables.opened genesis s.latest).IsPrefix (Tables.opened genesis db))
    (hdurable : s.durable ⊆ durable) (hmerkle : durable ⊆ merkle)
    (hrows : RowNodes nodes durable db)
    (hprocess : M.ProcessOk genesis nodes db merkle durable process) :
    M.FolderOk genesis nodes ⟨process, db, s.latest :: s.older, merkle, durable⟩ := by
  refine ⟨?_, ?_, ?_, hmerkle, hprocess⟩
  · intro v hv
    rcases List.mem_cons.mp hv with rfl | hv
    · exact hchain
    · exact h.chain v hv
  · exact List.pairwise_cons.mpr
      ⟨fun v hv => (h.isPrefix_latest hB v hv).trans hpre, h.grows⟩
  · intro v hv
    rcases List.mem_cons.mp hv with rfl | hv
    · exact hrows
    · exact (h.rows v hv).mono hdurable

/-- The same transactions, more nodes. -/
theorem FolderOk.same (h : M.FolderOk genesis nodes s) {merkle durable : Set Node}
    {process : Process Sealed Unsealed} (hdurable : s.durable ⊆ durable)
    (hmerkle : durable ⊆ merkle)
    (hprocess : M.ProcessOk genesis nodes s.latest merkle durable process) :
    M.FolderOk genesis nodes ⟨process, s.latest, s.older, merkle, durable⟩ :=
  ⟨h.chain, h.grows, fun db hdb => (h.rows db hdb).mono hdurable, hmerkle, hprocess⟩

/-- A crash leaves a prefix of the transactions. -/
theorem FolderOk.crash (h : M.FolderOk genesis nodes s) {k : Nat} {lost : Set Node} {db : Tables}
    {older : List Tables} (hdrop : (s.latest :: s.older).drop k = db :: older) :
    M.FolderOk genesis nodes
      ⟨.closed, db, older, s.durable ∪ (s.merkle \ lost), s.durable⟩ := by
  have hsub : (db :: older).Sublist (s.latest :: s.older) := by
    rw [← hdrop]
    exact List.drop_sublist k _
  refine ⟨?_, h.grows.sublist hsub, ?_, Set.subset_union_left, trivial⟩
  · exact fun v hv => h.chain v (hsub.subset hv)
  · exact fun v hv => h.rows v (hsub.subset hv)

variable {c c' : Procs.Config Nat (Shared Unsealed) (Call Sealed)} {unflushed : List Nat}
  {merkle durable : Set Node} {label : (Nat × CallEvent) ⊕ StorageEvent Sealed}

theorem ended_of_mayAct {d : StorageEvent Sealed} (hmay : mayAct unflushed (.inr d) = true)
    (call : Call Sealed) : ended d call = call := by
  cases d with
  | reopen => cases hmay
  | _ => rfl

theorem unflushedAfter_mem {i : Nat} (hi : i ∈ unflushed) :
    i ∈ M.unflushedAfter c unflushed label := by
  cases label with
  | inl call =>
    obtain ⟨j, e⟩ := call
    simp only [unflushedAfter]
    split
    · exact List.mem_cons_of_mem _ hi
    · exact hi
  | inr d => exact hi

/-- **One step of the open storage** on what the folder knows of its nodes. -/
theorem exec_flushed (hB : M.BuildsStates) (hok : M.SharedOk genesis c.shared)
    (hcalls : ∀ i, M.CallOk genesis c.shared i (c.procs i))
    (hnodes : ∀ i, CallNodes nodes merkle durable unflushed i (c.procs i))
    (hrows : RowNodes nodes durable c.shared.db) (hmay : mayAct unflushed label = true)
    (hexec : (M.storage genesis).exec c label = some c') (written : Set Node) :
    RowNodes nodes durable c'.shared.db ∧ ∀ i, CallNodes nodes
      (merkle ∪ (M.acceptedNodes nodes c label ∪ written)) durable
      (M.unflushedAfter c unflushed label) i (c'.procs i) := by
  cases label with
  | inl call =>
    obtain ⟨i, e⟩ := call
    obtain ⟨sh', l', hstep, rfl⟩ := Procs.exec_proc.mp hexec
    have hi : i ∉ unflushed := of_decide_eq_true hmay
    have haccept : e = .check → ∀ blk cproof s s',
        c.procs i = .made blk cproof (.checking (.done s)) → M.checkBlock s blk cproof = .ok s' →
          nodes blk.header ⊆ merkle ∪ (M.acceptedNodes nodes c (.inl (i, e)) ∪ written) ∧
            i ∈ M.unflushedAfter c unflushed (.inl (i, e)) := by
      rintro rfl blk cproof t t' hproc hcheck
      have hat : M.acceptedAt c (.inl (i, .check)) = some (t, blk, cproof) := by
        simp only [acceptedAt, hproc, hcheck]
        rfl
      refine ⟨?_, ?_⟩
      · intro n hn
        exact Or.inr (Or.inl ⟨_, hat, hn⟩)
      · simp only [unflushedAfter, hat]
        exact List.mem_cons_self
    obtain ⟨hrows', hnodes'⟩ :=
      (callStep_cases hstep).2.flushed hok (hcalls i) hi (hnodes i) hrows haccept
    refine ⟨hrows', fun j => ?_⟩
    show CallNodes nodes _ durable _ j (Function.update c.procs i l' j)
    by_cases hj : j = i
    · subst hj
      rw [Function.update_self]
      exact hnodes'
    · rw [Function.update_of_ne hj]
      exact (hnodes j).mono Set.subset_union_left subset_rfl unflushedAfter_mem
  | inr d =>
    obtain ⟨sh', hstep, rfl⟩ := Procs.exec_env.mp hexec
    obtain ⟨-, hdb, -⟩ := storageStep_same hB hok hstep
    refine ⟨?_, fun i => ?_⟩
    · show RowNodes nodes durable sh'.db
      rw [hdb]
      exact hrows
    · show CallNodes nodes _ durable _ i (ended d (c.procs i))
      rw [ended_of_mayAct hmay]
      exact (hnodes i).mono Set.subset_union_left subset_rfl unflushedAfter_mem

theorem sharedOk_justOpened {db : Tables} (hchain : M.Chain genesis db) :
    M.SharedOk genesis (M.justOpened genesis db).shared := by
  refine ⟨hchain, ?_, ?_, ?_⟩
  · intro h blk hblk
    exact absurd hblk Table.getElem?_empty_ne
  · intro h blk hmem
    cases hmem
  · intro h i hi
    exact absurd hi Table.getElem?_empty_ne

/-- **Every step keeps the folder in order.** -/
theorem FolderStep.ok (hB : M.BuildsStates) (h : M.FolderOk genesis nodes s)
    {e : FolderEvent Sealed Node} (hstep : M.FolderStep genesis nodes s e s') :
    M.FolderOk genesis nodes s' := by
  have hprocess := h.process
  have hlatest := h.chain s.latest List.mem_cons_self
  cases hstep with
  | startOpen hp =>
    refine h.same subset_rfl h.durable ⟨?_, ?_⟩
    · exact fun kv hkv => Std.ExtTreeMap.mem_toList_iff_getElem?_eq_some.mp hkv
    · exact fun t doc hdoc => Or.inl (Std.ExtTreeMap.mem_toList_iff_getElem?_eq_some.mpr hdoc)
  | @insertStake kv stakes hp =>
    rw [hp] at hprocess
    obtain ⟨hgenesis, hall⟩ := hprocess
    have heq := opened_insertStake s.latest (hgenesis kv List.mem_cons_self)
    refine h.push hB ?_ ?_ subset_rfl h.durable (h.rows s.latest List.mem_cons_self) ⟨?_, ?_⟩
    · rw [heq]
      exact hlatest
    · rw [heq]
      exact (hlatest.wellFormed hB).isPrefix_refl
    · exact fun kv' hkv' => hgenesis kv' (List.mem_cons_of_mem kv hkv')
    · intro t doc hdoc
      rw [Std.ExtTreeMap.mem_iff_isSome_getElem?, stakes_insertStake]
      rcases hall t doc hdoc with hmem | hmem
      · rcases List.mem_cons.mp hmem with rfl | hmem
        · right
          rw [if_pos rfl]
          cases s.latest.stakes[t]? <;> rfl
        · exact Or.inl hmem
      · right
        rw [Std.ExtTreeMap.mem_iff_isSome_getElem?] at hmem
        obtain ⟨row, hrow⟩ := Option.isSome_iff_exists.mp hmem
        rw [hrow]
        split <;> rfl
  | opened hp =>
    rw [hp] at hprocess
    have heq : Tables.opened genesis s.latest = s.latest :=
      opened_of_stakes fun t doc hdoc => (hprocess.2 t doc hdoc).resolve_left List.not_mem_nil
    rw [heq] at hlatest
    exact h.same subset_rfl (h.durable.trans Set.subset_union_left)
      ⟨rfl, sharedOk_justOpened hlatest, fun _ => ⟨trivial, trivial⟩⟩
  | @act label written c c' unflushed hp hmay hexec =>
    rw [hp] at hprocess
    obtain ⟨hdb, hok, hcalls⟩ := hprocess
    obtain ⟨hok', hcalls', hG⟩ := exec_ok hB hok (fun i => (hcalls i).1) hexec
    have hrows := h.rows s.latest List.mem_cons_self
    rw [← hdb] at hrows
    obtain ⟨hrows', hnodes'⟩ := exec_flushed hB hok (fun i => (hcalls i).1)
      (fun i => (hcalls i).2) hrows hmay hexec written
    have heq := (hok.chain.wellFormed hB).opened_eq
    have heq' := (hok'.chain.wellFormed hB).opened_eq
    refine h.push hB ?_ ?_ subset_rfl (h.durable.trans Set.subset_union_left) hrows'
      ⟨rfl, hok', fun i => ⟨hcalls' i, hnodes' i⟩⟩
    · rw [heq']
      exact hok'.chain
    · rw [heq', ← hdb, heq]
      exact hG.db
  | flush hp =>
    rw [hp] at hprocess
    obtain ⟨hdb, hok, hcalls⟩ := hprocess
    exact h.same Set.subset_union_left (Set.union_subset h.durable subset_rfl)
      ⟨hdb, hok, fun i => ⟨(hcalls i).1, (hcalls i).2.flush⟩⟩
  | write hp =>
    have hprocess' := hprocess
    rw [hp] at hprocess'
    obtain ⟨hdb, hok, hcalls⟩ := hprocess'
    refine h.same subset_rfl (h.durable.trans Set.subset_union_left) ?_
    rw [hp]
    exact ⟨hdb, hok, fun i => ⟨(hcalls i).1, (hcalls i).2.mono Set.subset_union_left subset_rfl id⟩⟩
  | crash hdrop => exact h.crash hdrop

end Steps

/-! ## All runs -/

theorem folder_reachable (hB : M.BuildsStates) {s : Folder Sealed Unsealed Node}
    (hs : (M.folder genesis nodes).Reachable s) : M.FolderOk genesis nodes s := by
  refine hs.invariant ?_ ?_
  · rintro s rfl
    refine ⟨?_, List.pairwise_singleton _ _, ?_, subset_rfl, trivial⟩
    · intro db hdb
      obtain rfl := List.mem_singleton.mp hdb
      exact Chain.opened
    · intro db hdb h blk hblk
      obtain rfl := List.mem_singleton.mp hdb
      exact absurd hblk (by simp [Tables.block?, emptyFolder, Tables.fresh])
  · exact fun s e s' hok hstep => (folderNext_cases hstep).ok hB hok

/-- A step that is not one of the open storage. -/
def Quiet : FolderEvent Sealed Node → Prop
  | .act _ _ => False
  | _ => True

instance (e : FolderEvent Sealed Node) : Decidable (Quiet e) :=
  match e with
  | .act _ _ => isFalse id
  | .startOpen => isTrue trivial
  | .insertStake => isTrue trivial
  | .opened _ => isTrue trivial
  | .flush _ => isTrue trivial
  | .write _ => isTrue trivial
  | .crash _ _ => isTrue trivial

/-- Between steps of the storage, the transactions that are left are among those there were. -/
theorem FolderStep.quiet {s s' : Folder Sealed Unsealed Node}
    (h : M.FolderOk genesis nodes s) {e : FolderEvent Sealed Node} (hquiet : Quiet e)
    (hstep : M.FolderStep genesis nodes s e s') {db : Tables}
    (hpre : ∀ v ∈ s.latest :: s.older, (Tables.opened genesis v).IsPrefix db) :
    ∀ v ∈ s'.latest :: s'.older, (Tables.opened genesis v).IsPrefix db := by
  have hprocess := h.process
  cases hstep with
  | startOpen => exact hpre
  | @insertStake kv stakes hp =>
    rw [hp] at hprocess
    intro v hv
    rcases List.mem_cons.mp hv with rfl | hv
    · rw [opened_insertStake s.latest (hprocess.1 kv List.mem_cons_self)]
      exact hpre s.latest List.mem_cons_self
    · exact hpre v hv
  | opened => exact hpre
  | act => exact hquiet.elim
  | flush => exact hpre
  | write => exact hpre
  | crash hdrop =>
    intro v hv
    rw [← hdrop] at hv
    exact hpre v (List.mem_of_mem_drop hv)

/-- **Rows after a crash**: whatever crashes and opens lie between, an open storage has the rows of
an earlier one up to some height. -/
theorem reopened_upTo (hB : M.BuildsStates) {s s' : Folder Sealed Unsealed Node}
    (hs : (M.folder genesis nodes).Reachable s)
    {c c' : Procs.Config Nat (Shared Unsealed) (Call Sealed)} {unflushed unflushed' : List Nat}
    (hc : s.process = .running c unflushed)
    (hrun : ((M.folder genesis nodes).guard fun _ e => Quiet e).Reaches s s')
    (hc' : s'.process = .running c' unflushed') :
    c'.shared.db.highestHeight ≤ c.shared.db.highestHeight ∧
      c'.shared.db = c.shared.db.upTo c'.shared.db.highestHeight := by
  have hok := folder_reachable hB hs
  have hprocess := hok.process
  rw [hc] at hprocess
  obtain ⟨hdb, hshared, -⟩ := hprocess
  have hlatest := (hshared.chain.wellFormed hB).opened_eq
  have hall : M.FolderOk genesis nodes s' ∧
      ∀ v ∈ s'.latest :: s'.older, (Tables.opened genesis v).IsPrefix c.shared.db := by
    refine Lts.Reaches.invariant hrun (I := fun t => M.FolderOk genesis nodes t ∧
      ∀ v ∈ t.latest :: t.older, (Tables.opened genesis v).IsPrefix c.shared.db) ⟨hok, ?_⟩ ?_
    · intro v hv
      have hv' := hok.isPrefix_latest hB v hv
      rw [← hdb, hlatest] at hv'
      exact hv'
    · intro t e t' ⟨ht, hpre⟩ ⟨hquiet, hstep⟩
      have hcases := folderNext_cases hstep
      exact ⟨hcases.ok hB ht, hcases.quiet ht hquiet hpre⟩
  obtain ⟨hok', hpre⟩ := hall
  have hprocess' := hok'.process
  rw [hc'] at hprocess'
  obtain ⟨hdb', hshared', -⟩ := hprocess'
  have hfound := hpre s'.latest List.mem_cons_self
  rw [← hdb', (hshared'.chain.wellFormed hB).opened_eq] at hfound
  exact ⟨hfound.le, hfound.eq.symm⟩

/-- `get_state` gives back the state of every stored height. -/
def StatesBack (M : Melstf Sealed Unsealed) (genesis : GenesisConfig) (db : Tables) : Prop :=
  ∀ h, 1 ≤ h → h ≤ db.highestHeight → ∃ s, M.replay genesis db h = some s ∧
    M.getState genesis db h = .ok (some s)

theorem getState_rawStakes (hB : M.BuildsStates) {db : Tables} {h : Nat} {s : Sealed}
    (hs : M.getState genesis db h = .ok (some s)) : M.getStakeset genesis db h = M.rawStakes s := by
  unfold getState rebuildState at hs
  cases hblk : db.block? h with
  | none =>
    rw [hblk] at hs
    cases hs
  | some blk =>
    rw [hblk] at hs
    dsimp only at hs
    split at hs
    · cases hs
      exact (hB.rawStakes_fromBlock _ _).symm
    · cases hs

theorem statesBack_iff_agree (hB : M.BuildsStates) {db : Tables} :
    M.StatesBack genesis db ↔ M.StakesAgree genesis db := by
  constructor
  · intro hback h h1 hle
    obtain ⟨s, hs, hget⟩ := hback h h1 hle
    exact ⟨s, hs, getState_rawStakes hB hget, hget⟩
  · intro hagree h h1 hle
    obtain ⟨s, hs, -, hget⟩ := hagree h h1 hle
    exact ⟨s, hs, hget⟩

/-- **Crash consistency, exactly.** After any run and whatever crashes and opens follow it, the open
storage has the rows of a prefix of the blocks that were committed and `merkle.db` has all their
nodes; `get_state` gives back the state of every height left if and only if every stake that the
blocks left put into the table is admitted by the transition or expired. -/
theorem crash_consistent_iff (hB : M.BuildsStates) (hE : M.EvolvesStakes)
    (hmono : Monotone M.epoch) {s s' : Folder Sealed Unsealed Node}
    (hs : (M.folder genesis nodes).Reachable s)
    {c c' : Procs.Config Nat (Shared Unsealed) (Call Sealed)} {unflushed unflushed' : List Nat}
    (hc : s.process = .running c unflushed)
    (hrun : ((M.folder genesis nodes).guard fun _ e => Quiet e).Reaches s s')
    (hc' : s'.process = .running c' unflushed') :
    (∀ h blk, c'.shared.db.block? h = some blk → nodes blk.header ⊆ s'.merkle) ∧
      (c'.shared.db.highestHeight ≤ c.shared.db.highestHeight ∧
        c'.shared.db = c.shared.db.upTo c'.shared.db.highestHeight) ∧
      (M.StatesBack genesis c'.shared.db ↔
        ∀ h blk, c'.shared.db.block? h = some blk → M.StakesAdmitted blk) := by
  have hok' := folder_reachable hB (hs.trans hrun.of_guard)
  have hprocess' := hok'.process
  rw [hc'] at hprocess'
  obtain ⟨hdb', hshared', -⟩ := hprocess'
  refine ⟨?_, reopened_upTo hB hs hc hrun hc', ?_⟩
  · intro h blk hblk
    rw [hdb'] at hblk
    exact (hok'.rows s'.latest List.mem_cons_self h blk hblk).trans hok'.durable
  · rw [statesBack_iff_agree hB]
    exact stakesAgree_iff_admitted hE hmono (hshared'.chain.wellFormed hB)

/-! ## The three-staker network -/

/-- The nodes of a state of the small transition: its roots. -/
def ledgerNodes (hd : Header) : Set Bytes := {hd.roots}

/-- One open of the folder of the three-staker network. -/
def opens : List (FolderEvent Ledger.Sealed Bytes) :=
  [.startOpen, .insertStake, .insertStake, .insertStake, .opened ∅]

/-- Steps of call 0 that write nothing else. -/
def acts (events : List CallEvent) : List (FolderEvent Ledger.Sealed Bytes) :=
  events.map fun e => .act (.inl (0, e)) ∅

/-- Call 0 from height 0 up to the commit of its block. -/
def commitsFirst (blk : Block) : List (FolderEvent Ledger.Sealed Bytes) :=
  acts ([.invoke blk (Ledger.proofBy [1, 2, 3] blk), .acquire] ++ reads 0 ++ [.check]) ++
    [.flush 0] ++ acts [.start, .commit]

/-- The folder of the three-staker network after some more steps. -/
def folderFrom (s : Folder Ledger.Sealed Ledger.Unsealed Bytes)
    (labels : List (FolderEvent Ledger.Sealed Bytes)) :
    Folder Ledger.Sealed Ledger.Unsealed Bytes :=
  (Lts.run (ledger.folderNext Ledger.threeStakers ledgerNodes) s labels).getD s

/-- The folder of the network once a first block is committed. -/
def folderCommitted (blk : Block) : Folder Ledger.Sealed Ledger.Unsealed Bytes :=
  folderFrom emptyFolder (opens ++ commitsFirst blk)

/-- The same after a crash that loses every node it can, and the next open. -/
def folderCrashed (blk : Block) : Folder Ledger.Sealed Ledger.Unsealed Bytes :=
  folderFrom (folderCommitted blk) (.crash 0 Set.univ :: opens)

/-- The open storage of a folder, and its calls that still have to flush. -/
def openConfig (s : Folder Ledger.Sealed Ledger.Unsealed Bytes) :
    Option (Procs.Config Nat (Shared Ledger.Unsealed) (Call Ledger.Sealed) × List Nat) :=
  match s.process with
  | .running c unflushed => some (c, unflushed)
  | _ => none

/-- The open storage of a folder that is open. -/
def openOf (s : Folder Ledger.Sealed Ledger.Unsealed Bytes) :
    Procs.Config Nat (Shared Ledger.Unsealed) (Call Ledger.Sealed) × List Nat :=
  (openConfig s).getD (ledger.freshStorage Ledger.threeStakers, [])

theorem process_openOf {s : Folder Ledger.Sealed Ledger.Unsealed Bytes}
    (h : (openConfig s).isSome) : s.process = .running (openOf s).1 (openOf s).2 := by
  unfold openOf
  unfold openConfig at h ⊢
  cases hp : s.process with
  | running c unflushed => rfl
  | closed => simp [hp] at h
  | opening stakes => simp [hp] at h

theorem folderCommitted_reachable {blk : Block}
    (h : (Lts.run (ledger.folderNext Ledger.threeStakers ledgerNodes) emptyFolder
      (opens ++ commitsFirst blk)).isSome) :
    (ledger.folder Ledger.threeStakers ledgerNodes).Reachable (folderCommitted blk) :=
  ⟨emptyFolder, rfl, Lts.reaches_end h⟩

theorem folderCrashed_reaches {blk : Block}
    (h : (Lts.runGuarded (ledger.folderNext Ledger.threeStakers ledgerNodes) (fun _ e => Quiet e)
      (folderCommitted blk) (.crash 0 Set.univ :: opens)).isSome) :
    ((ledger.folder Ledger.threeStakers ledgerNodes).guard fun _ e => Quiet e).Reaches
      (folderCommitted blk) (folderCrashed blk) :=
  Lts.reaches_end_guarded h

theorem crash_consistent_iff_firstBlock :
    let s' := folderCrashed (Ledger.firstBlock 1)
    let db := (openOf (folderCommitted (Ledger.firstBlock 1))).1.shared.db
    let db' := (openOf s').1.shared.db
    (∀ h blk, db'.block? h = some blk → ledgerNodes blk.header ⊆ s'.merkle) ∧
      (db'.highestHeight ≤ db.highestHeight ∧ db' = db.upTo db'.highestHeight) ∧
      (ledger.StatesBack Ledger.threeStakers db' ↔
        ∀ h blk, db'.block? h = some blk → ledger.StakesAdmitted blk) :=
  crash_consistent_iff ledger_builds ledger_evolves (fun _ _ h => Nat.div_le_div_right h)
    (folderCommitted_reachable (by decide +kernel)) (process_openOf (by decide +kernel))
    (folderCrashed_reaches (by decide +kernel)) (process_openOf (by decide +kernel))

/-- The first block stakes for the current epoch: it is committed and survives the crash, and after
the next open `get_state` fails its assertion on it. -/
theorem crash_consistent_currentEpoch :
    let s' := folderCrashed (Ledger.firstStake ⟨4, 0, 5, 7⟩)
    (ledger.folder Ledger.threeStakers ledgerNodes).Reachable s' ∧
      s'.process = .running (openOf s').1 (openOf s').2 ∧
      (openOf s').1.shared.db.highestHeight = 1 ∧
      ledger.getState Ledger.threeStakers (openOf s').1.shared.db 1 = .error .stakesHashMismatch ∧
      ¬ ledger.StatesBack Ledger.threeStakers (openOf s').1.shared.db := by
  intro s'
  have hreach : (ledger.folder Ledger.threeStakers ledgerNodes).Reachable s' := by
    have hcommitted : (ledger.folder Ledger.threeStakers ledgerNodes).Reachable
        (folderCommitted (Ledger.firstStake ⟨4, 0, 5, 7⟩)) :=
      folderCommitted_reachable (by decide +kernel)
    exact hcommitted.trans (folderCrashed_reaches (by decide +kernel)).of_guard
  have hH : (openOf s').1.shared.db.highestHeight = 1 := by decide +kernel
  have hget : ledger.getState Ledger.threeStakers (openOf s').1.shared.db 1 =
      .error .stakesHashMismatch := by
    decide +kernel
  refine ⟨hreach, process_openOf (by decide +kernel), hH, hget, ?_⟩
  intro hback
  obtain ⟨s, -, hs⟩ := hback 1 (Nat.le_refl 1) (Nat.le_of_eq hH.symm)
  rw [hget] at hs
  cases hs

end Melstf

end Melnode
