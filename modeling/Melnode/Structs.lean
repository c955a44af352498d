import Mathlib
import Melnode.Lib.Weight

/-!
# The data the node passes around

The types of `melstructs`, `tmelcrypt` and `tip911-stakeset` as far as `src/` reads them: a record
keeps the fields some modelled function looks at, and one opaque field for the bytes none does.
Amounts (`CoinValue`) and heights (`BlockHeight`) are naturals; a width is stated where the code can
overflow (`checkedAdd`, `checkedMul`). Maps keyed by hashes, keys or heights are extensional tree
maps, iterated in key order as `BTreeMap` is.
-/

namespace Melnode

open Lib

abbrev HashVal := BitVec 256
abbrev TxHash := BitVec 256
abbrev Address := BitVec 256
abbrev Ed25519PK := BitVec 256
abbrev Bytes := List UInt8

instance : Std.TransOrd HashVal := BitVec.instTransOrd
instance : Std.LawfulEqOrd HashVal := BitVec.instLawfulEqOrd

/-- `NetID`. -/
inductive NetID where
  | mainnet
  | testnet
  | custom (n : Nat)
  deriving DecidableEq, Repr

/-- `TxKind`; the node only tells `Stake` from the others. -/
inductive TxKind where
  | stake
  | other (tag : UInt8)
  deriving DecidableEq, Repr

structure CoinData where
  covhash : Address
  value : Nat
  deriving DecidableEq, Repr

/-- `Transaction`; `rest` stands for the inputs, fee, covenants and signatures. -/
structure Transaction where
  kind : TxKind
  outputs : List CoinData
  data : Bytes
  rest : Bytes
  deriving DecidableEq, Repr

/-- `StakeDoc`. -/
structure StakeDoc where
  pubkey : Ed25519PK
  eStart : Nat
  ePostEnd : Nat
  symsStaked : Nat
  deriving DecidableEq, Repr

/-- `Header`; `roots` stands for the Merkle roots and the other fields the node only hashes. -/
structure Header where
  network : NetID
  height : Nat
  feeMultiplier : Nat
  stakesHash : HashVal
  roots : Bytes
  deriving DecidableEq, Repr

/-- `ProposerAction`. -/
structure ProposerAction where
  feeMultiplierDelta : Int
  rewardDest : Address
  deriving DecidableEq, Repr

/-- `Block`; the transaction set is the list its iterator yields. -/
structure Block where
  header : Header
  transactions : List Transaction
  proposerAction : Option ProposerAction
  deriving DecidableEq, Repr

/-- `ConsensusProof`, and the entries of `ConsensusProofGatherer`: signatures by public key. -/
abbrev ConsensusProof := Std.ExtTreeMap Ed25519PK Bytes

instance : DecidableEq ConsensusProof := inferInstance

/-- `StakeSet`: a map from transaction hash to stake document. -/
abbrev StakeSet := Std.ExtTreeMap TxHash StakeDoc

/-- `GenesisConfig`; `rest` stands for the initial coins, fee pool and fee multiplier. -/
structure GenesisConfig where
  network : NetID
  stakes : StakeSet
  rest : Bytes

/-! ## Panics and errors -/

/-- The places where the code panics, which aborts the process (`panic = "abort"`). -/
inductive PanicSite where
  -- an overflow check of integer arithmetic
  | overflow
  -- `assert_eq!` on `stakes_hash` in `get_state`
  | stakesHashMismatch
  -- `expect("highest not available")` in `highest_state`
  | highestNotAvailable
  deriving DecidableEq, Repr

/-- How a fallible call can fail: an `Err` its caller sees, or a panic. -/
inductive Fault (ε : Type) where
  | bail (e : ε)
  | panic (site : PanicSite)
  deriving DecidableEq, Repr

/-- The number of `u128` values. -/
def u128Bound : Nat := 2 ^ 128

/-- `u128` addition under overflow checks. -/
def checkedAdd {ε : Type} (a b : Nat) : Except (Fault ε) Nat :=
  if a + b < u128Bound then .ok (a + b) else .error (.panic .overflow)

/-- `u128` multiplication under overflow checks. -/
def checkedMul {ε : Type} (a b : Nat) : Except (Fault ε) Nat :=
  if a * b < u128Bound then .ok (a * b) else .error (.panic .overflow)

/-! ## Stake documents by epoch -/

/-- The document counts in `epoch`: `e_start <= epoch < e_post_end`. -/
def StakeDoc.activeIn (doc : StakeDoc) (epoch : Nat) : Bool :=
  decide (doc.eStart ≤ epoch) && decide (epoch < doc.ePostEnd)

/-- The `syms_staked` of the documents active in `epoch` whose key satisfies `p`, summed. -/
def activeStake (docs : List StakeDoc) (epoch : Nat) (p : Ed25519PK → Bool) : Nat :=
  weigh StakeDoc.symsStaked (fun d => d.activeIn epoch && p d.pubkey) docs

theorem activeStake_mono {p q : Ed25519PK → Bool} (docs : List StakeDoc) (epoch : Nat)
    (h : ∀ pubkey, p pubkey = true → q pubkey = true) :
    activeStake docs epoch p ≤ activeStake docs epoch q := by
  apply weigh_mono
  intro d _ hd
  obtain ⟨hactive, hp⟩ := Bool.and_eq_true_iff.mp hd
  exact Bool.and_eq_true_iff.mpr ⟨hactive, h _ hp⟩

namespace StakeSet

/-- The documents of the set. -/
def docs (stakes : StakeSet) : List StakeDoc := stakes.toList.map Prod.snd

/-- `StakeSet::add_stake`. -/
def addStake (stakes : StakeSet) (txhash : TxHash) (doc : StakeDoc) : StakeSet :=
  stakes.insert txhash doc

/-- `StakeSet::unlock_old`: forgets the documents with `e_post_end <= epoch`. -/
def unlockOld (stakes : StakeSet) (epoch : Nat) : StakeSet :=
  stakes.filter fun _ doc => decide (epoch < doc.ePostEnd)

/-- `StakeSet::votes`. -/
def votes (stakes : StakeSet) (epoch : Nat) (key : Ed25519PK) : Nat :=
  activeStake stakes.docs epoch (· == key)

/-- `StakeSet::total_votes`. -/
def totalVotes (stakes : StakeSet) (epoch : Nat) : Nat :=
  activeStake stakes.docs epoch fun _ => true

theorem getElem?_unlockOld (stakes : StakeSet) (epoch : Nat) (t : TxHash) :
    (stakes.unlockOld epoch)[t]? =
      stakes[t]?.filter fun doc => decide (epoch < doc.ePostEnd) := by
  simp [unlockOld, Std.ExtTreeMap.getElem?_filter]

end StakeSet

end Melnode
