import Melnode.Storage.Accepted

/-!
# A database folder and its crashes

`storage.db` holds the rows and `merkle.db` the nodes they point to. `folder M genesis nodes` is one
database folder over any number of opens, steps of the open storage and crashes: SQLite keeps some
prefix of its committed transactions; the nodes that were there at a flush stay, and any part of the
others.
-/

namespace Melnode

open Lib

variable {Sealed Unsealed Node : Type}

/-! ## States -/

/-- What the process does with the folder. -/
inductive Process (Sealed Unsealed : Type) where
  | closed
  -- in `Storage::open`, with the genesis stakes still to insert
  | opening (stakes : List (TxHash × StakeDoc))
  -- open, with the calls whose block is accepted and whose `flush` has not run
  | running (c : Procs.Config Nat (Shared Unsealed) (Call Sealed)) (unflushed : List Nat)

/-- A database folder and its process. -/
structure Folder (Sealed Unsealed Node : Type) where
  process : Process Sealed Unsealed
  latest : Tables
  -- the tables before each committed transaction, the last one first
  older : List Tables
  -- what is in `merkle.db`, and what of it a flush has made durable
  merkle : Set Node
  durable : Set Node

/-- The steps of a folder, with the nodes they write besides those of an accepted block. -/
inductive FolderEvent (Sealed Node : Type) where
  | startOpen
  | insertStake
  -- `genesis.realize(&forest)` and the end of `Storage::open`
  | opened (written : Set Node)
  | act (label : (Nat × CallEvent) ⊕ StorageEvent Sealed) (written : Set Node)
  -- `self.forest.storage().flush()` of one call
  | flush (i : Nat)
  -- a tree somebody else builds over the forest
  | write (written : Set Node)
  -- the last `k` transactions and the nodes in `lost` that are not durable are gone
  | crash (k : Nat) (lost : Set Node)

/-- One genesis stake of `Storage::open`: `insert .. on conflict do nothing`. -/
def Tables.insertStake (db : Tables) (kv : TxHash × StakeDoc) : Tables :=
  { db with stakes := db.stakes.insertIfNew kv.1 (StakeRow.mk 0 kv.2) }

namespace Melstf

variable (M : Melstf Sealed Unsealed) (genesis : GenesisConfig) (nodes : Header → Set Node)

/-! ## Steps -/

/-- Nothing can happen to a call between `apply_block` of the state and the flush but a crash. -/
def mayAct (unflushed : List Nat) : (Nat × CallEvent) ⊕ StorageEvent Sealed → Bool
  | .inl (i, _) => decide (i ∉ unflushed)
  | .inr .kill => false
  | .inr .reopen => false
  | .inr _ => true

/-- The calls that still have to flush after a step. -/
def unflushedAfter (c : Procs.Config Nat (Shared Unsealed) (Call Sealed)) (unflushed : List Nat) :
    (Nat × CallEvent) ⊕ StorageEvent Sealed → List Nat
  | .inl (i, e) => if (M.acceptedAt c (.inl (i, e))).isSome then i :: unflushed else unflushed
  | .inr _ => unflushed

/-- The nodes of the state that an accepted block leads to. -/
def acceptedNodes (c : Procs.Config Nat (Shared Unsealed) (Call Sealed))
    (label : (Nat × CallEvent) ⊕ StorageEvent Sealed) : Set Node :=
  {n | ∃ a ∈ M.acceptedAt c label, n ∈ nodes a.2.1.header}

/-- A storage just opened on tables that have the genesis stakes. -/
def justOpened (db : Tables) : Procs.Config Nat (Shared Unsealed) (Call Sealed) where
  shared := { M.openStorage genesis db ∅ with db := db }
  procs _ := .idle

/-- One step of a folder. -/
def folderNext (s : Folder Sealed Unsealed Node) :
    FolderEvent Sealed Node → Option (Folder Sealed Unsealed Node)
  | .startOpen =>
    match s.process with
    | .closed => some { s with process := .opening genesis.stakes.toList }
    | _ => none
  | .insertStake =>
    match s.process with
    | .opening (kv :: stakes) =>
      some { s with
        process := .opening stakes
        latest := s.latest.insertStake kv
        older := s.latest :: s.older }
    | _ => none
  | .opened written =>
    match s.process with
    | .opening [] =>
      some { s with
        process := .running (M.justOpened genesis s.latest) []
        merkle := s.merkle ∪ written }
    | _ => none
  | .act label written =>
    match s.process with
    | .running c unflushed =>
      if mayAct unflushed label then
        ((M.storage genesis).exec c label).map fun c' =>
          { s with
            process := .running c' (M.unflushedAfter c unflushed label)
            latest := c'.shared.db
            older := s.latest :: s.older
            merkle := s.merkle ∪ (M.acceptedNodes nodes c label ∪ written) }
      else
        none
    | _ => none
  | .flush i =>
    match s.process with
    | .running c unflushed =>
      if c.shared.crashed = false ∧ i ∈ unflushed then
        some { s with
          process := .running c (unflushed.filter (· ≠ i))
          durable := s.durable ∪ s.merkle }
      else
        none
    | _ => none
  | .write written =>
    match s.process with
    | .running c _ =>
      if c.shared.crashed = false then some { s with merkle := s.merkle ∪ written } else none
    | _ => none
  | .crash k lost =>
    match (s.latest :: s.older).drop k with
    | [] => none
    | db :: older =>
      some
        { process := .closed
          latest := db
          older := older
          merkle := s.durable ∪ (s.merkle \ lost)
          durable := s.durable }

/-- A folder before its first open. -/
def emptyFolder : Folder Sealed Unsealed Node where
  process := .closed
  latest := Tables.fresh
  older := []
  merkle := ∅
  durable := ∅

/-- A folder over all opens, steps and crashes. -/
def folder : Lts (Folder Sealed Unsealed Node) (FolderEvent Sealed Node) :=
  Lts.ofNext (fun s => s = emptyFolder) (M.folderNext genesis nodes)

/-- The cases of `folderNext`. -/
inductive FolderStep (s : Folder Sealed Unsealed Node) :
    FolderEvent Sealed Node → Folder Sealed Unsealed Node → Prop where
  | startOpen (hp : s.process = .closed) :
      FolderStep s .startOpen { s with process := .opening genesis.stakes.toList }
  | insertStake {kv : TxHash × StakeDoc} {stakes : List (TxHash × StakeDoc)}
      (hp : s.process = .opening (kv :: stakes)) :
      FolderStep s .insertStake
        { s with
          process := .opening stakes
          latest := s.latest.insertStake kv
          older := s.latest :: s.older }
  | opened {written : Set Node} (hp : s.process = .opening []) :
      FolderStep s (.opened written)
        { s with
          process := .running (M.justOpened genesis s.latest) []
          merkle := s.merkle ∪ written }
  | act {label : (Nat × CallEvent) ⊕ StorageEvent Sealed} {written : Set Node}
      {c c' : Procs.Config Nat (Shared Unsealed) (Call Sealed)} {unflushed : List Nat}
      (hp : s.process = .running c unflushed) (hmay : mayAct unflushed label = true)
      (hexec : (M.storage genesis).exec c label = some c') :
      FolderStep s (.act label written)
        { s with
          process := .running c' (M.unflushedAfter c unflushed label)
          latest := c'.shared.db
          older := s.latest :: s.older
          merkle := s.merkle ∪ (M.acceptedNodes nodes c label ∪ written) }
  | flush {i : Nat} {c : Procs.Config Nat (Shared Unsealed) (Call Sealed)} {unflushed : List Nat}
      (hp : s.process = .running c unflushed) :
      FolderStep s (.flush i)
        { s with
          process := .running c (unflushed.filter (· ≠ i))
          durable := s.durable ∪ s.merkle }
  | write {written : Set Node} {c : Procs.Config Nat (Shared Unsealed) (Call Sealed)}
      {unflushed : List Nat} (hp : s.process = .running c unflushed) :
      FolderStep s (.write written) { s with merkle := s.merkle ∪ written }
  | crash {k : Nat} {lost : Set Node} {db : Tables} {older : List Tables}
      (hdrop : (s.latest :: s.older).drop k = db :: older) :
      FolderStep s (.crash k lost)
        { process := .closed
          latest := db
          older := older
          merkle := s.durable ∪ (s.merkle \ lost)
          durable := s.durable }

variable {M genesis nodes}

theorem folderNext_cases {s s' : Folder Sealed Unsealed Node} {e : FolderEvent Sealed Node}
    (h : M.folderNext genesis nodes s e = some s') : M.FolderStep genesis nodes s e s' := by
  unfold folderNext at h
  split at h
  · split at h
    · next hp =>
      cases h
      exact .startOpen hp
    · cases h
  · split at h
    · next hp =>
      cases h
      exact .insertStake hp
    · cases h
  · split at h
    · next hp =>
      cases h
      exact .opened hp
    · cases h
  · split at h
    · next hp =>
      split at h
      · next hmay =>
        obtain ⟨c', hexec, rfl⟩ := Option.map_eq_some_iff.mp h
        exact .act hp hmay hexec
      · cases h
    · cases h
  · split at h
    · next hp =>
      split at h
      · cases h
        exact .flush hp
      · cases h
    · cases h
  · split at h
    · next hp =>
      split at h
      · cases h
        exact .write hp
      · cases h
    · cases h
  · split at h
    · cases h
    · next hdrop =>
      cases h
      exact .crash hdrop

end Melstf

end Melnode
