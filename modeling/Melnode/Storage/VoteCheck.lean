import Melnode.Stf.Ledger

/-!
# The vote check of `apply_block`

`apply_block` walks the stake documents of the highest state and keeps two sums: `total_votes`, the
stake active in the block's epoch, and `present_votes`, meant to be the part of it whose keys
signed. For a signing document the loop adds the *running* `total_votes` to `present_votes`, so a
document is credited with all the active stake iterated before it as well (`stakeAhead`).
`voteCheck_ok_iff` is the verdict in closed form; `voteCheck_quorum_iff` says for which inputs a
verdict of "enough votes" means a quorum.
-/

namespace Melnode

open Lib

/-- The errors of `apply_block`. -/
inductive ApplyError where
  -- "cannot apply block {block} to height {highest}"
  | cannotApply (block highest : Nat)
  | undecodableStake
  -- "rejecting putative block {height} due to insufficient votes ({present}/{total})"
  | insufficientVotes (height : Nat) (present total : Nat)
  | state (e : StateError)
  -- an error of the connection pool or of SQLite
  | database
  deriving DecidableEq, Repr

namespace Melstf

variable {Sealed Unsealed : Type} (M : Melstf Sealed Unsealed)

/-- The proof has an entry for the key that verifies over the hash. -/
def signedBy (hash : HashVal) (cproof : ConsensusProof) (pubkey : Ed25519PK) : Bool :=
  match cproof[pubkey]? with
  | some v => M.verify pubkey hash v
  | none => false

/-- The `for stake_doc_bytes in ..` loop, with `total_votes` and `present_votes` so far. -/
def voteLoop (epoch : Nat) (hash : HashVal) (cproof : ConsensusProof) :
    List Bytes → Nat → Nat → Except (Fault ApplyError) (Nat × Nat)
  | [], totalVotes, presentVotes => .ok (totalVotes, presentVotes)
  | bytes :: rest, totalVotes, presentVotes =>
    match M.decodeStakeDoc bytes with
    | none => .error (.bail .undecodableStake)
    | some stakeDoc =>
      if stakeDoc.activeIn epoch then do
        let totalVotes ← checkedAdd totalVotes stakeDoc.symsStaked
        -- `present_votes += total_votes`, not `+= stake_doc.syms_staked`
        let presentVotes ← if M.signedBy hash cproof stakeDoc.pubkey then
          checkedAdd presentVotes totalVotes else pure presentVotes
        voteLoop epoch hash cproof rest totalVotes presentVotes
      else
        voteLoop epoch hash cproof rest totalVotes presentVotes

/-- The consensus proof check of `apply_block` against the stakes of the highest state. -/
def voteCheck (stakes : StakeSet) (blk : Block) (cproof : ConsensusProof) :
    Except (Fault ApplyError) Unit := do
  let (totalVotes, presentVotes) ← M.voteLoop (M.epoch blk.header.height)
    (M.headerHash blk.header) cproof (M.preTip911 stakes) 0 0
  let twice ← checkedMul 2 totalVotes
  if presentVotes ≤ twice / 3 then
    .error (.bail (.insufficientVotes blk.header.height presentVotes totalVotes))
  else
    .ok ()

/-! ## The sums over the documents -/

/-- The stake active in `epoch` whose keys signed the hash. -/
def signedStake (stakes : StakeSet) (epoch : Nat) (hash : HashVal) (cproof : ConsensusProof) :
    Nat :=
  activeStake stakes.docs epoch (M.signedBy hash cproof)

/-- For each active document whose key signed, the active stake iterated before it, summed. -/
def stakeAhead (stakes : StakeSet) (epoch : Nat) (hash : HashVal) (cproof : ConsensusProof) :
    Nat :=
  weighAhead StakeDoc.symsStaked (·.activeIn epoch) (fun d => M.signedBy hash cproof d.pubkey) 0
    (M.iterDocs stakes)

section Loop

variable {M}
variable {epoch : Nat} {hash : HashVal} {cproof : ConsensusProof}

/-- The loop in closed form: it sums what is active and what is credited, and overflows exactly
when one of the two final sums does. -/
theorem voteLoop_eq {docs : List StakeDoc} : ∀ {l : List Bytes} {t p : Nat},
    l.map M.decodeStakeDoc = docs.map some → t < u128Bound → p < u128Bound →
    M.voteLoop epoch hash cproof l t p =
      let total := t + activeStake docs epoch fun _ => true
      let present := p + (activeStake docs epoch (M.signedBy hash cproof) +
        weighAhead StakeDoc.symsStaked (·.activeIn epoch)
          (fun d => M.signedBy hash cproof d.pubkey) t docs)
      if total < u128Bound ∧ present < u128Bound then .ok (total, present)
      else .error (.panic .overflow) := by
  induction docs with
  | nil =>
    intro l t p hl ht hp
    obtain rfl : l = [] := by simpa using hl
    simp [voteLoop, activeStake, ht, hp]
  | cons d docs ih =>
    intro l t p hl ht hp
    obtain ⟨b, l, rfl, hb, hl⟩ := List.map_eq_cons_iff.mp hl
    simp only [voteLoop, hb, activeStake, weigh_cons, weighAhead_cons]
    by_cases hact : d.activeIn epoch = true
    · -- an active document enters the total and, when its key signed, the running total is credited
      simp only [hact, ite_true, Bool.true_and]
      by_cases ht' : t + d.symsStaked < u128Bound
      · by_cases hsig : M.signedBy hash cproof d.pubkey = true
        · by_cases hp' : p + (t + d.symsStaked) < u128Bound
          · have hrec := ih hl ht' hp'
            simp only [checkedAdd, ht', hp', hsig, ite_true, bind, Except.bind]
            simp only [activeStake] at hrec
            rw [hrec]
            simp only [Nat.add_assoc, Nat.add_left_comm]
          · simp only [checkedAdd, ht', hp', hsig, ite_true, ite_false, bind, Except.bind]
            rw [if_neg]
            omega
        · have hrec := ih hl ht' hp
          simp only [checkedAdd, ht', hsig, ite_true, bind, Except.bind, pure,
            Except.pure, Bool.false_eq_true, ite_false]
          simp only [activeStake] at hrec
          rw [hrec]
          simp only [Nat.add_assoc, Nat.zero_add]
      · simp only [checkedAdd, ht', ite_false, bind, Except.bind]
        rw [if_neg]
        omega
    · simp only [hact, Bool.false_eq_true, ite_false, Bool.false_and, Nat.zero_add]
      exact ih hl ht hp

/-- With no signatures no votes are present. -/
theorem voteLoop_empty {l : List Bytes} : ∀ {t p : Nat} {sums : Nat × Nat},
    M.voteLoop epoch hash ∅ l t p = .ok sums → sums.2 = p := by
  induction l with
  | nil =>
    intro t p sums h
    cases h
    rfl
  | cons bytes rest ih =>
    intro t p sums h
    unfold voteLoop at h
    split at h
    · cases h
    · split at h
      · simp only [signedBy, Std.ExtTreeMap.getElem?_empty, Bool.false_eq_true, if_false, pure,
          Except.pure, bind, Except.bind] at h
        split at h
        · cases h
        · exact ih h
      · exact ih h

end Loop

/-! ## The verdict -/

/-- No `u128` sum of the check overflows: neither the credited votes nor twice the total. -/
def VotesFit (stakes : StakeSet) (epoch : Nat) (hash : HashVal) (cproof : ConsensusProof) : Prop :=
  M.signedStake stakes epoch hash cproof + M.stakeAhead stakes epoch hash cproof < u128Bound ∧
    2 * stakes.totalVotes epoch < u128Bound

section Verdict

variable {M}
variable (hM : M.EnumeratesStakes) (stakes : StakeSet) (blk : Block) (cproof : ConsensusProof)

include hM in
theorem voteLoop_preTip911 (epoch : Nat) (hash : HashVal) :
    M.voteLoop epoch hash cproof (M.preTip911 stakes) 0 0 =
      let total := stakes.totalVotes epoch
      let present := M.signedStake stakes epoch hash cproof + M.stakeAhead stakes epoch hash cproof
      if total < u128Bound ∧ present < u128Bound then .ok (total, present)
      else .error (.panic .overflow) := by
  have hpos : 0 < u128Bound := by decide
  rw [voteLoop_eq (hM.map_decode stakes) hpos hpos]
  simp only [hM.activeStake_iterDocs, Nat.zero_add]
  rfl

include hM in
/-- **The verdict of the check**: it passes exactly when no sum overflows and the signing stake,
together with the stake ahead of each signing document, is above two thirds of the total. -/
theorem voteCheck_ok_iff :
    M.voteCheck stakes blk cproof = .ok () ↔
      M.VotesFit stakes (M.epoch blk.header.height) (M.headerHash blk.header) cproof ∧
        2 * stakes.totalVotes (M.epoch blk.header.height) <
          3 * (M.signedStake stakes (M.epoch blk.header.height) (M.headerHash blk.header) cproof +
            M.stakeAhead stakes (M.epoch blk.header.height) (M.headerHash blk.header) cproof) := by
  unfold voteCheck VotesFit
  rw [voteLoop_preTip911 hM]
  generalize M.signedStake stakes _ _ cproof + M.stakeAhead stakes _ _ cproof = present
  generalize stakes.totalVotes _ = total
  by_cases hfit : total < u128Bound ∧ present < u128Bound
  · by_cases htwice : 2 * total < u128Bound
    · simp only [hfit, and_self, ite_true, bind, Except.bind, checkedMul, htwice]
      by_cases hle : present ≤ 2 * total / 3
      · simp only [hle, ite_true, reduceCtorEq, false_iff]
        omega
      · simp only [hle, ite_false, true_iff, true_and]
        omega
    · simp [hfit, bind, Except.bind, checkedMul, htwice]
  · simp only [hfit, ite_false, bind, Except.bind, reduceCtorEq, false_iff]
    omega

include hM in
/-- Within the `u128` range the check never panics. -/
theorem voteCheck_ne_panic
    (hfit : M.VotesFit stakes (M.epoch blk.header.height) (M.headerHash blk.header) cproof)
    (site : PanicSite) : M.voteCheck stakes blk cproof ≠ .error (.panic site) := by
  obtain ⟨hpresent, htwice⟩ := hfit
  have htotal : stakes.totalVotes (M.epoch blk.header.height) < u128Bound := by omega
  unfold voteCheck
  rw [voteLoop_preTip911 hM]
  simp only [htotal, hpresent, and_self, ite_true, bind, Except.bind, checkedMul, htwice]
  split <;> simp

/-- **An empty proof** is rejected. -/
theorem voteCheck_empty : M.voteCheck stakes blk ∅ ≠ .ok () := by
  intro h
  unfold voteCheck at h
  cases hsums : M.voteLoop (M.epoch blk.header.height) (M.headerHash blk.header) ∅
      (M.preTip911 stakes) 0 0 with
  | error f => simp [hsums, bind, Except.bind] at h
  | ok sums =>
    have hpresent : sums.2 = 0 := voteLoop_empty hsums
    simp only [hsums, hpresent, bind, Except.bind] at h
    split at h
    · cases h
    · simp at h

end Verdict

/-- The signers of the proof hold strictly more than two thirds of the active stake. -/
def HasQuorum (stakes : StakeSet) (blk : Block) (cproof : ConsensusProof) : Prop :=
  2 * stakes.totalVotes (M.epoch blk.header.height) <
    3 * M.signedStake stakes (M.epoch blk.header.height) (M.headerHash blk.header) cproof

/-- Crediting every signing document with the stake ahead of it does not lift signers without a
quorum over two thirds: either they have one, or they stay below with the credit as well. -/
def CreditHarmless (stakes : StakeSet) (blk : Block) (cproof : ConsensusProof) : Prop :=
  M.HasQuorum stakes blk cproof ∨
    3 * (M.signedStake stakes (M.epoch blk.header.height) (M.headerHash blk.header) cproof +
      M.stakeAhead stakes (M.epoch blk.header.height) (M.headerHash blk.header) cproof) ≤
      2 * stakes.totalVotes (M.epoch blk.header.height)

instance (stakes : StakeSet) (blk : Block) (cproof : ConsensusProof) :
    Decidable (M.HasQuorum stakes blk cproof) :=
  inferInstanceAs (Decidable (_ < _))

instance (stakes : StakeSet) (blk : Block) (cproof : ConsensusProof) :
    Decidable (M.CreditHarmless stakes blk cproof) :=
  inferInstanceAs (Decidable (_ ∨ _))

instance (stakes : StakeSet) (epoch : Nat) (hash : HashVal) (cproof : ConsensusProof) :
    Decidable (M.VotesFit stakes epoch hash cproof) :=
  inferInstanceAs (Decidable (_ ∧ _))

variable {M}

/-- Where the stake ahead is harmless, a block that passes has a quorum. -/
theorem CreditHarmless.hasQuorum (hM : M.EnumeratesStakes) {stakes : StakeSet} {blk : Block}
    {cproof : ConsensusProof} (h : M.CreditHarmless stakes blk cproof)
    (hpass : M.voteCheck stakes blk cproof = .ok ()) : M.HasQuorum stakes blk cproof := by
  obtain ⟨-, hlt⟩ := (voteCheck_ok_iff hM stakes blk cproof).mp hpass
  rcases h with hq | hlate
  · exact hq
  · exact absurd hlt (Nat.not_lt.mpr hlate)

/-- **Quorum soundness, exactly**: where no sum overflows, "the check passes only with a quorum"
holds of the stakes, block and proof if and only if the stake credited ahead is harmless. -/
theorem voteCheck_quorum_iff (hM : M.EnumeratesStakes) (s : Sealed) (blk : Block)
    (cproof : ConsensusProof)
    (hfit : M.VotesFit (M.rawStakes s) (M.epoch blk.header.height) (M.headerHash blk.header)
      cproof) :
    (M.voteCheck (M.rawStakes s) blk cproof = .ok () → M.HasQuorum (M.rawStakes s) blk cproof) ↔
      M.CreditHarmless (M.rawStakes s) blk cproof := by
  constructor
  · intro h
    by_cases hq : M.HasQuorum (M.rawStakes s) blk cproof
    · exact Or.inl hq
    · right
      by_contra hlate
      have hpass : M.voteCheck (M.rawStakes s) blk cproof = .ok () :=
        (voteCheck_ok_iff hM _ blk cproof).mpr ⟨hfit, Nat.lt_of_not_le hlate⟩
      exact hq (h hpass)
  · exact fun h hpass => h.hasQuorum hM hpass

/-- With everybody's signatures the check passes, and with a quorum. -/
theorem voteCheck_quorum_iff_firstBlock :
    ledger.voteCheck (ledger.genesisState Ledger.threeStakers).stakes (Ledger.firstBlock 1)
        (Ledger.proofBy [1, 2, 3] (Ledger.firstBlock 1)) = .ok () ∧
      ledger.HasQuorum (ledger.genesisState Ledger.threeStakers).stakes (Ledger.firstBlock 1)
        (Ledger.proofBy [1, 2, 3] (Ledger.firstBlock 1)) := by
  have hpass : ledger.voteCheck (ledger.genesisState Ledger.threeStakers).stakes
      (Ledger.firstBlock 1) (Ledger.proofBy [1, 2, 3] (Ledger.firstBlock 1)) = .ok () := by
    decide +kernel
  have hiff := voteCheck_quorum_iff ledger_enumerates (ledger.genesisState Ledger.threeStakers)
    (Ledger.firstBlock 1) (Ledger.proofBy [1, 2, 3] (Ledger.firstBlock 1)) (by decide +kernel)
  exact ⟨hpass, hiff.mpr (by decide +kernel) hpass⟩

/-- One of three equal stakers, iterated last, passes the check alone. -/
theorem voteCheck_lastStaker :
    ledger.VotesFit (ledger.genesisState Ledger.threeStakers).stakes 0
        (ledger.headerHash (Ledger.firstBlock 1).header)
        (Ledger.proofBy [3] (Ledger.firstBlock 1)) ∧
      ledger.voteCheck (ledger.genesisState Ledger.threeStakers).stakes (Ledger.firstBlock 1)
        (Ledger.proofBy [3] (Ledger.firstBlock 1)) = .ok () ∧
      ¬ ledger.HasQuorum (ledger.genesisState Ledger.threeStakers).stakes (Ledger.firstBlock 1)
        (Ledger.proofBy [3] (Ledger.firstBlock 1)) := by
  decide +kernel

/-! ## Completeness -/

/-- Every entry of the one proof is in the other. -/
def Extends (cproof cproof' : ConsensusProof) : Prop :=
  ∀ (pubkey : Ed25519PK) (v : Bytes), cproof[pubkey]? = some v → cproof'[pubkey]? = some v

section Complete

variable {stakes : StakeSet} {blk : Block} {cproof cproof' : ConsensusProof}

/-- Who signed still has with more entries. -/
theorem Extends.signedBy (h : Extends cproof cproof') {hash : HashVal} {pubkey : Ed25519PK}
    (hsigned : M.signedBy hash cproof pubkey = true) : M.signedBy hash cproof' pubkey = true := by
  unfold Melstf.signedBy at hsigned ⊢
  cases hv : cproof[pubkey]? with
  | none =>
    rw [hv] at hsigned
    cases hsigned
  | some v =>
    rw [h pubkey v hv]
    rw [hv] at hsigned
    exact hsigned

theorem Extends.signedStake_le (h : Extends cproof cproof') (epoch : Nat) (hash : HashVal) :
    M.signedStake stakes epoch hash cproof ≤ M.signedStake stakes epoch hash cproof' :=
  activeStake_mono _ _ fun _ hsigned => h.signedBy hsigned

theorem Extends.stakeAhead_le (h : Extends cproof cproof') (epoch : Nat) (hash : HashVal) :
    M.stakeAhead stakes epoch hash cproof ≤ M.stakeAhead stakes epoch hash cproof' :=
  weighAhead_mono fun _ _ hsigned => h.signedBy hsigned

/-- A quorum passes: its stake alone is above two thirds, whatever it is credited with besides. -/
theorem HasQuorum.voteCheck (hM : M.EnumeratesStakes)
    (hfit : M.VotesFit stakes (M.epoch blk.header.height) (M.headerHash blk.header) cproof)
    (h : M.HasQuorum stakes blk cproof) : M.voteCheck stakes blk cproof = .ok () := by
  refine (voteCheck_ok_iff hM stakes blk cproof).mpr ⟨hfit, ?_⟩
  unfold HasQuorum at h
  omega

/-- Entries that are added only add to what is credited. -/
theorem Extends.voteCheck (hM : M.EnumeratesStakes) (h : Extends cproof cproof')
    (hfit : M.VotesFit stakes (M.epoch blk.header.height) (M.headerHash blk.header) cproof')
    (hpass : M.voteCheck stakes blk cproof = .ok ()) : M.voteCheck stakes blk cproof' = .ok () := by
  obtain ⟨-, hlt⟩ := (voteCheck_ok_iff hM stakes blk cproof).mp hpass
  refine (voteCheck_ok_iff hM stakes blk cproof').mpr ⟨hfit, ?_⟩
  have hsigned : M.signedStake stakes (M.epoch blk.header.height) (M.headerHash blk.header) cproof ≤
      M.signedStake stakes (M.epoch blk.header.height) (M.headerHash blk.header) cproof' :=
    h.signedStake_le _ _
  have hahead : M.stakeAhead stakes (M.epoch blk.header.height) (M.headerHash blk.header) cproof ≤
      M.stakeAhead stakes (M.epoch blk.header.height) (M.headerHash blk.header) cproof' :=
    h.stakeAhead_le _ _
  omega

end Complete

/-- **Quorum completeness and monotonicity**: where no sum overflows, a block whose signers hold
more than two thirds of the active stake passes the check, and one that passes still does when the
proof gets more entries, valid or not. -/
theorem voteCheck_complete (hM : M.EnumeratesStakes) (stakes : StakeSet) (blk : Block)
    (cproof : ConsensusProof) :
    (M.VotesFit stakes (M.epoch blk.header.height) (M.headerHash blk.header) cproof →
      M.HasQuorum stakes blk cproof → M.voteCheck stakes blk cproof = .ok ()) ∧
    ∀ cproof', Extends cproof cproof' →
      M.VotesFit stakes (M.epoch blk.header.height) (M.headerHash blk.header) cproof' →
        M.voteCheck stakes blk cproof = .ok () → M.voteCheck stakes blk cproof' = .ok () :=
  ⟨fun hfit h => h.voteCheck hM hfit, fun _ h hfit hpass => h.voteCheck hM hfit hpass⟩

/-- The three stakers pass, and so they do beside an entry that is no signature. -/
theorem voteCheck_complete_firstBlock :
    let stakes := (ledger.genesisState Ledger.threeStakers).stakes
    let cproof := Ledger.proofBy [1, 2, 3] (Ledger.firstBlock 1)
    ledger.voteCheck stakes (Ledger.firstBlock 1) cproof = .ok () ∧
      ledger.voteCheck stakes (Ledger.firstBlock 1) (cproof.insert 9 []) = .ok () := by
  intro stakes cproof
  obtain ⟨hcomplete, hmono⟩ := voteCheck_complete ledger_enumerates stakes (Ledger.firstBlock 1) cproof
  have hpass := hcomplete (by decide +kernel) (by decide +kernel)
  refine ⟨hpass, hmono (cproof.insert 9 []) ?_ (by decide +kernel) hpass⟩
  intro pubkey v hv
  have hne : (9 : Ed25519PK) ≠ pubkey := by
    rintro rfl
    exact absurd (Ledger.mem_proofBy hv) (by decide)
  rw [Std.ExtTreeMap.getElem?_insert, if_neg]
  · exact hv
  · simpa using hne

end Melstf

end Melnode
