import Melnode.Sync.Blksync

/-!
# Block sync with any peer

`attempt_blksync` moves its height by the number of blocks of a reply, and applies the blocks that
have a proof beside them. So a reply without blocks leaves it where it was, for as long as the peer
sends such replies (`sync_ends_iff`), and a block without a proof is passed over, which is no loss
only above the reported height (`sync_reaches_iff`).
-/

namespace Melnode

open Lib

section Replies

variable {σ ω : Type} (W : Wire ω)

/-- The reply decodes to no blocks. -/
def Wire.IsEmpty (reply : Option ω) : Prop :=
  ∃ compressed cproofs, reply = some compressed ∧ W.decode compressed = some ([], cproofs)

/-- The peer answers with these replies only. -/
def Peer.AnswersIn (P : Peer σ ω) (replies : Set (Option ω)) : Prop :=
  ∀ peer height sizeLimit reply peer',
    P.getLz4Blocks peer height sizeLimit = some (reply, peer') → reply ∈ replies

/-- A peer that reports a height and then goes through a sequence of replies, of which its state is
the number it has given. -/
def scriptedPeer (reported : Nat) (replies : Nat → Option (Option ω)) : Peer Nat ω where
  getSummary k := some (reported, k)
  getLz4Blocks k _ _ := (replies k).map fun reply => (reply, k + 1)

/-- The blocks a reply decodes to, and their number. -/
def Wire.blocksOf (reply : Option (Option ω)) : Nat :=
  match reply.join.bind W.decode with
  | some (blocks, _) => blocks.length
  | none => 0

/-- Every block of the reply that belongs at or below `reported`, counting from `height`, has a proof
beside it. -/
def Wire.Paired (reported height : Nat) (reply : Option (Option ω)) : Prop :=
  ∀ blocks cproofs, reply.join.bind W.decode = some (blocks, cproofs) →
    ∀ i < blocks.length, height + i ≤ reported → i < cproofs.length

/-- So it is in the next replies, each counting from where the blocks before it end. -/
def Wire.AllPaired (reported : Nat) (replies : Nat → Option (Option ω)) : Nat → Nat → Nat → Prop
  | 0, _, _ => True
  | rounds + 1, k, height =>
    W.Paired reported height (replies k) ∧
      Wire.AllPaired reported replies rounds (k + 1) (height + W.blocksOf (replies k))

/-- Above the reported height nothing is asked of a reply. -/
theorem Wire.allPaired_of_lt {reported : Nat} {replies : Nat → Option (Option ω)} :
    ∀ {rounds k height : Nat}, reported < height → W.AllPaired reported replies rounds k height
  | 0, _, _, _ => trivial
  | rounds + 1, k, height, hlt => by
    refine ⟨fun blocks cproofs _ i _ hle => ?_, Wire.allPaired_of_lt (by omega)⟩
    omega

end Replies

namespace Melstf

variable {Sealed Unsealed : Type} {M : Melstf Sealed Unsealed} {genesis : GenesisConfig}
  {σ ω : Type} {W : Wire ω}

/-! ## Ending -/

/-- **A loop without empty replies ends**: each of them moves it up. -/
theorem syncLoop_ends {P : Peer σ ω} {replies : Set (Option ω)} (hanswers : P.AnswersIn replies)
    (hnonempty : ∀ reply ∈ replies, ¬ W.IsEmpty reply) {theirHighest : Nat} :
    ∀ {d height : Nat} (peer : σ) (num : Nat) (st : Store Unsealed), theirHighest < height + d →
      ∃ out, M.syncLoop genesis W P theirHighest (d + 1) peer height num st = some out := by
  intro d
  induction d with
  | zero =>
    intro height peer num st hd
    exact ⟨_, syncLoop_done 0 hd⟩
  | succ d ih =>
    intro height peer num st hd
    unfold syncLoop
    split
    · next hmore =>
      split
      · exact ⟨_, rfl⟩
      · exact ⟨_, rfl⟩
      · next compressed peer' hreply =>
        split
        · exact ⟨_, rfl⟩
        · next blocks cproofs hdecode =>
          have hpos : 0 < blocks.length := by
            rcases Nat.eq_zero_or_pos blocks.length with hzero | hpos
            · rw [List.length_eq_zero_iff.mp hzero] at hdecode
              exact absurd ⟨_, _, rfl, hdecode⟩ (hnonempty _ (hanswers _ _ _ _ _ hreply))
            · exact hpos
          split
          · exact ⟨_, rfl⟩
          · exact ih _ _ _ (by omega)
    · exact ⟨_, rfl⟩

/-- A peer that has nothing but an empty reply holds the loop. -/
theorem syncLoop_empty {reported : Nat} {compressed : ω} {cproofs : List ConsensusProof}
    (hdecode : W.decode compressed = some ([], cproofs)) {height : Nat} (hmore : height ≤ reported) :
    ∀ (fuel k num : Nat) (st : Store Unsealed),
      M.syncLoop genesis W (scriptedPeer reported fun _ => some (some compressed)) reported fuel k
        height num st = none := by
  intro fuel
  induction fuel with
  | zero => exact fun _ _ _ => rfl
  | succ fuel ih =>
    intro k num st
    unfold syncLoop
    simp only [hmore, if_true, scriptedPeer, Option.map_some, hdecode, List.zip_nil_left, applyBatch,
      List.length_nil, Nat.add_zero]
    exact ih (k + 1) num st

/-- **Block sync ends, exactly** with the peers that never send a batch without blocks: whatever
else a peer may answer, and whatever height it reports, `attempt_blksync` ends after finitely many
requests (with `Ok`, an error or a panic), and with an empty batch among the answers there is a peer
it never gets away from. -/
theorem sync_ends_iff (st : Store Unsealed) (replies : Set (Option ω)) :
    (∀ (τ : Type) (P : Peer τ ω) (peer : τ), P.AnswersIn replies →
      ∃ fuel out, M.attemptBlksync genesis W P fuel peer st = some out) ↔
      ∀ reply ∈ replies, ¬ W.IsEmpty reply := by
  constructor
  · rintro hends reply hmem ⟨compressed, cproofs, rfl, hdecode⟩
    have hanswers : (scriptedPeer (st.db.highestHeight + 1)
        fun _ => some (some compressed)).AnswersIn replies := by
      intro peer height sizeLimit reply peer' hreply
      cases hreply
      exact hmem
    obtain ⟨fuel, out, hout⟩ := hends Nat _ 0 hanswers
    have hahead : ¬ st.db.highestHeight + 1 ≤ st.db.highestHeight := by omega
    unfold attemptBlksync at hout
    simp only [scriptedPeer, hahead, if_false] at hout
    have hnone : M.syncLoop genesis W (scriptedPeer (st.db.highestHeight + 1)
        fun _ => some (some compressed)) (st.db.highestHeight + 1) fuel 0
          (st.db.highestHeight + 1) 0 st = none :=
      syncLoop_empty hdecode (Nat.le_refl _) fuel 0 0 st
    unfold scriptedPeer at hnone
    rw [hnone] at hout
    cases hout
  · intro hnonempty τ P peer hanswers
    cases hsummary : P.getSummary peer with
    | none =>
      refine ⟨0, (.error (.bail .summary), st), ?_⟩
      unfold attemptBlksync
      rw [hsummary]
    | some summary =>
      obtain ⟨theirHighest, peer'⟩ := summary
      by_cases hdone : theirHighest ≤ st.db.highestHeight
      · refine ⟨0, (.ok 0, st), ?_⟩
        unfold attemptBlksync
        simp only [hsummary, hdone, if_true]
      · have hlt : theirHighest < st.db.highestHeight + 1 + theirHighest := by omega
        obtain ⟨out, hout⟩ := syncLoop_ends (M := M) hanswers hnonempty peer' 0 st hlt
        refine ⟨theirHighest + 1, out, ?_⟩
        unfold attemptBlksync
        simp only [hsummary, hdone, if_false]
        exact hout

/-- A peer that always sends an empty batch. -/
theorem sync_ends_emptyBatch :
    ¬ ∃ fuel out, ledger.attemptBlksync Ledger.threeStakers Ledger.wire
      (scriptedPeer 1 fun _ => some (some ([], []))) fuel 0 Ledger.freshStore = some out := by
  rintro ⟨fuel, out, hends⟩
  have hheight : Ledger.freshStore.db.highestHeight = 0 := by decide +kernel
  have hloop : ledger.attemptBlksync Ledger.threeStakers Ledger.wire
      (scriptedPeer 1 fun _ => some (some ([], []))) fuel 0 Ledger.freshStore = none := by
    unfold attemptBlksync
    simp only [scriptedPeer, hheight]
    exact syncLoop_empty rfl (Nat.le_refl 1) fuel 0 0 _
  rw [hloop] at hends
  cases hends

end Melstf

namespace Ledger

/-- A peer that always sends the first block, with its proof or without. -/
def pairedReply (_ : Nat) : Option (Option (List Block × List ConsensusProof)) :=
  some (some ([firstBlock 1], [proofBy [1, 2, 3] (firstBlock 1)]))

def unpairedReply (_ : Nat) : Option (Option (List Block × List ConsensusProof)) :=
  some (some ([firstBlock 1], []))

end Ledger

namespace Melstf

variable {Sealed Unsealed : Type} {M : Melstf Sealed Unsealed} {genesis : GenesisConfig}
  {σ ω : Type} {W : Wire ω}

/-! ## What a successful round does -/

section Rounds

variable {P : Peer σ ω} {theirHighest : Nat}

/-- A loop that ends with `Ok` is done, or goes through a round first. -/
theorem syncLoop_ok {fuel height num n : Nat} {peer : σ} {st st' : Store Unsealed}
    (h : M.syncLoop genesis W P theirHighest (fuel + 1) peer height num st = some (.ok n, st')) :
    (theirHighest < height ∧ n = num ∧ st' = st) ∨
      (height ≤ theirHighest ∧ ∃ compressed peer' blocks cproofs num₁ st₁,
        P.getLz4Blocks peer height 500000 = some (some compressed, peer') ∧
        W.decode compressed = some (blocks, cproofs) ∧
        M.applyBatch genesis height (blocks.zip cproofs) height num st = (.ok num₁, st₁) ∧
        M.syncLoop genesis W P theirHighest fuel peer' (height + blocks.length) num₁ st₁ =
          some (.ok n, st')) := by
  by_cases hmore : height ≤ theirHighest
  · right
    refine ⟨hmore, ?_⟩
    unfold syncLoop at h
    rw [if_pos hmore] at h
    split at h
    · cases h
    · cases h
    · next compressed peer' hreply =>
      split at h
      · cases h
      · next blocks cproofs hdecode =>
        split at h
        · cases h
        · next num₁ st₁ happly =>
          exact ⟨compressed, peer', blocks, cproofs, num₁, st₁, hreply, hdecode, happly, h⟩
  · left
    rw [syncLoop_done fuel (Nat.not_le.mp hmore)] at h
    cases h
    exact ⟨Nat.not_le.mp hmore, rfl, rfl⟩

/-- **One batch** commits a block for every pair, or stops at an error. -/
theorem applyBatch_commits {height : Nat} :
    ∀ {pairs : List (Block × ConsensusProof)} {last num : Nat} {st st' : Store Unsealed}
      {res : Except (Fault SyncError) Nat},
      M.applyBatch genesis height pairs last num st = (res, st') →
      ∃ blks, M.Commits genesis st.db blks st'.db ∧
        ∀ n, res = .ok n → n = num + pairs.length ∧ blks.length = pairs.length := by
  intro pairs
  induction pairs with
  | nil =>
    intro last num st st' res h
    cases h
    refine ⟨[], .nil _, ?_⟩
    rintro n heq
    cases heq
    exact ⟨rfl, rfl⟩
  | cons pair pairs ih =>
    obtain ⟨blk, cproof⟩ := pair
    intro last num st st' res h
    unfold applyBatch at h
    split at h
    · cases h
      exact ⟨[], .nil _, by rintro n ⟨⟩⟩
    · split at h
      · next hstore =>
        cases h
        obtain ⟨blks, hcommits, -⟩ := storeBlock_commits hstore
        exact ⟨blks, hcommits, by rintro n ⟨⟩⟩
      · next hstore =>
        cases h
        obtain ⟨blks, hcommits, -⟩ := storeBlock_commits hstore
        exact ⟨blks, hcommits, by rintro n ⟨⟩⟩
      · next st₁ hstore =>
        obtain ⟨blks₁, hcommits₁, hone⟩ := storeBlock_commits hstore
        obtain rfl := hone rfl
        obtain ⟨blks, hcommits, hok⟩ := ih h
        refine ⟨[blk] ++ blks, hcommits₁.append hcommits, fun n hn => ?_⟩
        obtain ⟨hnum, hlength⟩ := hok n hn
        simp only [List.length_append, List.length_cons, List.length_nil, hlength, hnum]
        omega

/-- **The loop** commits blocks and counts them. -/
theorem syncLoop_commits :
    ∀ {fuel height num : Nat} {peer : σ} {st st' : Store Unsealed}
      {res : Except (Fault SyncError) Nat},
      M.syncLoop genesis W P theirHighest fuel peer height num st = some (res, st') →
      ∃ blks, M.Commits genesis st.db blks st'.db ∧ ∀ n, res = .ok n → n = num + blks.length := by
  intro fuel
  induction fuel with
  | zero =>
    intro height num peer st st' res h
    cases h
  | succ fuel ih =>
    intro height num peer st st' res h
    have hnone : ∀ {e : SyncError}, some (.error (.bail e), st) = some (res, st') →
        ∃ blks, M.Commits genesis st.db blks st'.db ∧
          ∀ n, res = .ok n → n = num + blks.length := by
      rintro e heq
      cases heq
      exact ⟨[], .nil _, by rintro n ⟨⟩⟩
    unfold syncLoop at h
    split at h
    · split at h
      · exact hnone h
      · exact hnone h
      · split at h
        · exact hnone h
        · split at h
          · next happly =>
            cases h
            obtain ⟨blks, hcommits, -⟩ := applyBatch_commits happly
            exact ⟨blks, hcommits, by rintro n ⟨⟩⟩
          · next num₁ st₁ happly =>
            obtain ⟨blks₁, hcommits₁, hok₁⟩ := applyBatch_commits happly
            obtain ⟨hnum₁, hlength₁⟩ := hok₁ num₁ rfl
            obtain ⟨blks, hcommits, hok⟩ := ih h
            refine ⟨blks₁ ++ blks, hcommits₁.append hcommits, fun n hn => ?_⟩
            have hn' := hok n hn
            rw [List.length_append]
            omega
    · cases h
      refine ⟨[], .nil _, ?_⟩
      rintro n heq
      cases heq
      rfl

/-- A batch for a height above the next one is not applied at all. -/
theorem applyBatch_behind (hB : M.BuildsStates) {height num n : Nat}
    {pairs : List (Block × ConsensusProof)} {st st' : Store Unsealed}
    (hchain : M.Chain genesis st.db) (hbehind : st.db.highestHeight + 1 < height)
    (h : M.applyBatch genesis height pairs height num st = (.ok n, st')) : st' = st := by
  cases pairs with
  | nil =>
    cases h
    rfl
  | cons pair pairs =>
    obtain ⟨blk, cproof⟩ := pair
    unfold applyBatch at h
    split at h
    · cases h
    · next hheight =>
      have hblk : blk.header.height = height := not_not.mp hheight
      split at h
      · cases h
      · cases h
      · next hstore =>
        have hnext := storeBlock_ok_height hB hchain hstore
        omega

/-- Once the height has run ahead of the chain, `Ok` comes without another block. -/
theorem syncLoop_behind (hB : M.BuildsStates) :
    ∀ {fuel height num n : Nat} {peer : σ} {st st' : Store Unsealed}, M.Chain genesis st.db →
      st.db.highestHeight + 1 < height →
      M.syncLoop genesis W P theirHighest fuel peer height num st = some (.ok n, st') →
      st' = st := by
  intro fuel
  induction fuel with
  | zero =>
    intro height num n peer st st' _ _ h
    cases h
  | succ fuel ih =>
    intro height num n peer st st' hchain hbehind h
    rcases syncLoop_ok h with ⟨-, -, hst⟩ | ⟨-, _, _, blocks, _, _, st₁, -, -, happly, hrest⟩
    · exact hst
    · obtain rfl := applyBatch_behind hB hchain hbehind happly
      exact ih hchain (by omega) hrest

end Rounds

/-! ## Reaching the reported height -/

section Reaching

variable {reported : Nat} {replies : Nat → Option (Option ω)}

/-- **A loop that is level with the chain** and ends with `Ok` reaches the reported height exactly
when the replies pair every block up to it with a proof. -/
theorem syncLoop_reaches_iff (hB : M.BuildsStates) :
    ∀ {rounds k height num n : Nat} {st st' : Store Unsealed}, M.Chain genesis st.db →
      st.db.highestHeight + 1 = height →
      M.syncLoop genesis W (scriptedPeer reported replies) reported (rounds + 1) k height num st =
        some (.ok n, st') →
      M.syncLoop genesis W (scriptedPeer reported replies) reported rounds k height num st = none →
      (reported ≤ st'.db.highestHeight ↔ W.AllPaired reported replies rounds k height) := by
  intro rounds
  induction rounds with
  | zero =>
    intro k height num n st st' _ hlevel hend _
    rcases syncLoop_ok hend with ⟨hdone, -, rfl⟩ | ⟨-, _, _, _, _, _, _, -, -, -, hrest⟩
    · exact ⟨fun _ => trivial, fun _ => by omega⟩
    · cases hrest
  | succ rounds ih =>
    intro k height num n st st' hchain hlevel hend hgoing
    rcases syncLoop_ok hend with ⟨hdone, -, -⟩ |
      ⟨hmore, compressed, peer', blocks, cproofs, num₁, st₁, hreply, hdecode, happly, hrest⟩
    · rw [syncLoop_done rounds hdone] at hgoing
      cases hgoing
    · rw [syncLoop_round rounds hmore hreply hdecode happly] at hgoing
      obtain ⟨reply, hscript, hpeer⟩ := Option.map_eq_some_iff.mp hreply
      cases hpeer
      have hjoin : (replies k).join.bind W.decode = some (blocks, cproofs) := by
        rw [hscript]
        exact hdecode
      have hblocks : W.blocksOf (replies k) = blocks.length := by
        unfold Wire.blocksOf
        rw [hjoin]
      obtain ⟨blks, hcommits, hok⟩ := applyBatch_commits happly
      obtain ⟨-, hlength⟩ := hok num₁ rfl
      have hchain₁ := hcommits.chain hchain
      have hH₁ := (hcommits.heights hB hchain).2.1
      rw [hlength, List.length_zip] at hH₁
      unfold Wire.AllPaired
      rw [hblocks]
      by_cases hpairs : blocks.length ≤ cproofs.length
      · -- every block has its proof: the loop stays level
        rw [Nat.min_eq_left hpairs] at hH₁
        rw [ih hchain₁ (by omega) hrest hgoing]
        refine ⟨fun hall => ⟨?_, hall⟩, fun hall => hall.2⟩
        intro blocks' cproofs' hjoin' i hi _
        rw [hjoin] at hjoin'
        cases hjoin'
        omega
      · -- some block has none: nothing is applied any more
        rw [Nat.min_eq_right (by omega)] at hH₁
        obtain rfl := syncLoop_behind hB hchain₁ (by omega) hrest
        constructor
        · intro hreached
          refine ⟨?_, Wire.allPaired_of_lt W (by omega)⟩
          intro blocks' cproofs' hjoin' i _ hi
          rw [hjoin] at hjoin'
          cases hjoin'
          omega
        · rintro ⟨hpaired, -⟩
          by_contra hshort
          have := hpaired blocks cproofs hjoin cproofs.length (by omega) (by omega)
          omega

/-- **Success of block sync.** Whatever a peer replies, the blocks committed are a run of
consecutive heights above the old one, and `Ok(n)` counts them. After `rounds` replies and `Ok`, the
chain has reached the reported height if and only if every block of the replies at or below that
height had a proof beside it. -/
theorem sync_reaches_iff (hB : M.BuildsStates) {st st' : Store Unsealed}
    (hchain : M.Chain genesis st.db) (hahead : st.db.highestHeight < reported) {rounds : Nat}
    {res : Except (Fault SyncError) Nat}
    (hend : M.attemptBlksync genesis W (scriptedPeer reported replies) (rounds + 1) 0 st =
      some (res, st'))
    (hgoing : M.attemptBlksync genesis W (scriptedPeer reported replies) rounds 0 st = none) :
    (∃ blks, M.Commits genesis st.db blks st'.db ∧ st.db.IsPrefix st'.db ∧
      st'.db.highestHeight = st.db.highestHeight + blks.length ∧
      blks.map (fun blk => blk.header.height) =
        List.range' (st.db.highestHeight + 1) blks.length ∧
      ∀ n, res = .ok n → n = blks.length) ∧
    ∀ n, res = .ok n → (reported ≤ st'.db.highestHeight ↔
      W.AllPaired reported replies rounds 0 (st.db.highestHeight + 1)) := by
  have hmore : ¬ reported ≤ st.db.highestHeight := by omega
  unfold attemptBlksync at hend hgoing
  simp only [scriptedPeer, hmore, if_false] at hend hgoing
  constructor
  · obtain ⟨blks, hcommits, hok⟩ := syncLoop_commits hend
    obtain ⟨hpre, hH, hrange⟩ := hcommits.heights hB hchain
    exact ⟨blks, hcommits, hpre, hH, hrange, fun n hn => by rw [hok n hn, Nat.zero_add]⟩
  · rintro n rfl
    exact syncLoop_reaches_iff hB hchain rfl hend hgoing

end Reaching

/-- A reply with the first block and its proof. -/
theorem sync_reaches_iff_firstBlock :
    ∃ st', ledger.attemptBlksync Ledger.threeStakers Ledger.wire (scriptedPeer 1 Ledger.pairedReply)
        2 0 Ledger.freshStore = some (.ok 1, st') ∧
      ((∃ blks, ledger.Commits Ledger.threeStakers Ledger.freshStore.db blks st'.db ∧
        Ledger.freshStore.db.IsPrefix st'.db ∧
        st'.db.highestHeight = Ledger.freshStore.db.highestHeight + blks.length ∧
        blks.map (fun blk => blk.header.height) =
          List.range' (Ledger.freshStore.db.highestHeight + 1) blks.length ∧
        ∀ n, (.ok 1 : Except (Fault SyncError) Nat) = .ok n → n = blks.length) ∧
      ∀ n, (.ok 1 : Except (Fault SyncError) Nat) = .ok n → (1 ≤ st'.db.highestHeight ↔
        Ledger.wire.AllPaired 1 Ledger.pairedReply 1 0
          (Ledger.freshStore.db.highestHeight + 1))) := by
  have hok : (ledger.attemptBlksync Ledger.threeStakers Ledger.wire
      (scriptedPeer 1 Ledger.pairedReply) 2 0 Ledger.freshStore).map Prod.fst = some (.ok 1) := by
    decide +kernel
  obtain ⟨⟨res, st'⟩, hend, hres⟩ := Option.map_eq_some_iff.mp hok
  have hres' : res = .ok 1 := hres
  subst hres'
  have hgoing : (ledger.attemptBlksync Ledger.threeStakers Ledger.wire
      (scriptedPeer 1 Ledger.pairedReply) 1 0 Ledger.freshStore).isNone = true := by decide +kernel
  have hahead : Ledger.freshStore.db.highestHeight < 1 := by decide +kernel
  exact ⟨st', hend, sync_reaches_iff ledger_builds Chain.opened hahead hend
    (Option.isNone_iff_eq_none.mp hgoing)⟩

/-- A reply with the first block and no proof: `Ok(0)`, one height short of the reported one. -/
theorem sync_reaches_unpaired :
    (ledger.attemptBlksync Ledger.threeStakers Ledger.wire (scriptedPeer 1 Ledger.unpairedReply) 2 0
        Ledger.freshStore).map (fun out => (out.1, out.2.db.highestHeight)) = some (.ok 0, 0) := by
  decide +kernel

end Melstf

end Melnode
