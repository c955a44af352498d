import Mathlib.Logic.Function.Basic
import Melnode.Lib.Channel
import Melnode.Lib.Lts

/-!
# Diffs between the cores of stakers

While streamlette decides a block, `sync_core` asks one staker after the other for a diff of its core
and answers the requests that `get_diff` has queued for it. Stakers start and stop syncing as their
rounds go, and a request may be answered by another round than the one it was queued in. Each request
is answered once, in turn, or refused where a hundred are waiting (`diffs_in_turn`), and what a core
applies of another staker comes from a core of a round with the same nonce (`diffs_same_nonce`).
-/

namespace Melnode

open Lib

/-- `streamlette::Core`, as far as `sync_core` uses it; that a diff is invalid is only logged. -/
structure StreamletteCore (Core Summary Diff : Type) where
  summary : Core → Summary
  getDiff : Core → Summary → List Diff
  applyOneDiff : Core → Diff → Core

/-- A `sync_core` under way: the nonce of its round, the core, and the staker and the number of the
call it waits for. -/
structure CoreSync (ι Core : Type) where
  nonce : Nat
  core : Core
  asked : Option (ι × Nat)
  deriving DecidableEq, Repr

/-- A staker: its `sync_core`, the queue behind its `get_diff`, and on record the cores that its
rounds have had. -/
structure DiffStaker (ι Core Summary Diff : Type) where
  sync : Option (CoreSync ι Core)
  requests : Channel (Nat × Summary) (List Diff)
  cores : List (Nat × Core)
  deriving DecidableEq, Repr

/-- `bounded(100)`. -/
def diffCapacity : Nat := 100

inductive DiffEvent (ι Core Summary Diff : Type) where
  -- streamlette calls `sync_core`, and drops it
  | start (nonce : Nat) (core : Core)
  | stop
  -- `main_loop`
  | ask (route : ι)
  | receive
  | giveUp
  -- a route that leads to no staker, and what it sends
  | hear (diffs : List Diff)
  -- `respond_loop`
  | respond
  -- `get_diff` called from anywhere
  | call (nonce : Nat) (summary : Summary)
  deriving DecidableEq, Repr

section Step

variable {ι Core Summary Diff : Type} [DecidableEq ι] (S : StreamletteCore Core Summary Diff)

/-- What `respond_loop` answers. -/
def CoreSync.answer (y : CoreSync ι Core) (req : Nat × Summary) : List Diff :=
  if req.1 = y.nonce then S.getDiff y.core req.2 else []

/-- `get_diff` up to its `await`. -/
def DiffStaker.getDiff (n : DiffStaker ι Core Summary Diff) (nonce : Nat) (summary : Summary) :
    DiffStaker ι Core Summary Diff :=
  { n with requests := n.requests.call diffCapacity (nonce, summary) }

/-- The staker goes on with a core. -/
def DiffStaker.withCore (n : DiffStaker ι Core Summary Diff) (nonce : Nat) (core : Core) :
    DiffStaker ι Core Summary Diff :=
  { n with sync := some ⟨nonce, core, none⟩, cores := n.cores ++ [(nonce, core)] }

/-- One event of staker `i`. -/
def diffStep (c : ι → DiffStaker ι Core Summary Diff) :
    ι × DiffEvent ι Core Summary Diff → Option (ι → DiffStaker ι Core Summary Diff)
  | (i, .start nonce core) =>
    if (c i).sync.isNone then some (Function.update c i ((c i).withCore nonce core)) else none
  | (i, .stop) => some (Function.update c i { c i with sync := none })
  | (i, .ask route) =>
    match (c i).sync with
    | some ⟨nonce, core, none⟩ =>
      let c₁ := Function.update c route ((c route).getDiff nonce (S.summary core))
      some (Function.update c₁ i
        { c₁ i with sync := some ⟨nonce, core, some (route, (c route).requests.calls)⟩ })
    | _ => none
  | (i, .receive) =>
    match (c i).sync with
    | some ⟨nonce, core, some (route, id)⟩ =>
      ((c route).requests.reply? [] id).map fun diffs =>
        Function.update c i ((c i).withCore nonce (diffs.foldl S.applyOneDiff core))
    | _ => none
  | (i, .giveUp) =>
    match (c i).sync with
    | some ⟨nonce, core, some _⟩ =>
      some (Function.update c i { c i with sync := some ⟨nonce, core, none⟩ })
    | _ => none
  | (i, .hear diffs) =>
    match (c i).sync with
    | some ⟨nonce, core, none⟩ =>
      some (Function.update c i ((c i).withCore nonce (diffs.foldl S.applyOneDiff core)))
    | _ => none
  | (i, .respond) =>
    match (c i).sync with
    | some y => ((c i).requests.respond (y.answer S)).map fun requests =>
        Function.update c i { c i with requests := requests }
    | none => none
  | (i, .call nonce summary) => some (Function.update c i ((c i).getDiff nonce summary))

/-- The stakers, none of them syncing yet. -/
def diffNetwork : Lts (ι → DiffStaker ι Core Summary Diff) (ι × DiffEvent ι Core Summary Diff) :=
  Lts.ofNext (fun c => ∀ i, c i = ⟨none, .empty, []⟩) (diffStep S)

end Step

/-! ## The invariant -/

section Invariant

variable {ι Core Summary Diff : Type} {S : StreamletteCore Core Summary Diff}

/-- What a `sync_core` knows: its core is on record, and the call it waits for was made with the
summary of its core. -/
def CoreSync.Ok (S : StreamletteCore Core Summary Diff) (c : ι → DiffStaker ι Core Summary Diff)
    (n : DiffStaker ι Core Summary Diff) (y : CoreSync ι Core) : Prop :=
  (y.nonce, y.core) ∈ n.cores ∧
    ∀ route id, y.asked = some (route, id) →
      (c route).requests.Made id (y.nonce, S.summary y.core)

/-- What is known of the queue of a staker: a diff that it has answered with is of a core that a
round with the nonce of the request has had. -/
structure DiffStaker.Ok (S : StreamletteCore Core Summary Diff) (n : DiffStaker ι Core Summary Diff) :
    Prop where
  channel : n.requests.Ok diffCapacity
  answered : ∀ {id : Nat} {req : Nat × Summary} {diffs : List Diff},
    (id, req, diffs) ∈ n.requests.answered →
      diffs = [] ∨ ∃ core, (req.1, core) ∈ n.cores ∧ diffs = S.getDiff core req.2

/-- How the record of a staker changes. -/
structure DiffStaker.Grows (n n' : DiffStaker ι Core Summary Diff) : Prop where
  requests : n.requests.Grows n'.requests
  cores : n.cores <+: n'.cores

def DiffsOk (S : StreamletteCore Core Summary Diff) (c : ι → DiffStaker ι Core Summary Diff) : Prop :=
  ∀ i, (c i).Ok S ∧ ∀ y, (c i).sync = some y → y.Ok S c (c i)

theorem DiffStaker.Grows.refl (n : DiffStaker ι Core Summary Diff) : n.Grows n :=
  ⟨.refl _, List.prefix_rfl⟩

theorem DiffStaker.Grows.trans {n n' n'' : DiffStaker ι Core Summary Diff} (h : n.Grows n')
    (h' : n'.Grows n'') : n.Grows n'' :=
  ⟨h.requests.trans h'.requests, h.cores.trans h'.cores⟩

theorem CoreSync.Ok.grows {c c' : ι → DiffStaker ι Core Summary Diff}
    {n n' : DiffStaker ι Core Summary Diff} {y : CoreSync ι Core} (h : y.Ok S c n)
    (hgrows : ∀ j, (c j).Grows (c' j)) (hn : n.Grows n') : y.Ok S c' n' :=
  ⟨hn.cores.subset h.1, fun route id hasked => (hgrows route).requests.made (h.2 route id hasked)⟩

variable [DecidableEq ι] {c c' : ι → DiffStaker ι Core Summary Diff} {i : ι}
  {n : DiffStaker ι Core Summary Diff}

theorem grows_update (hn : (c i).Grows n) : ∀ j, (c j).Grows (Function.update c i n j) := by
  intro j
  by_cases hj : j = i
  · subst hj
    rw [Function.update_self]
    exact hn
  · rw [Function.update_of_ne hj]
    exact .refl _

/-- One staker changes. -/
theorem DiffsOk.update (h : DiffsOk S c) (hn : (c i).Grows n) (hok : n.Ok S)
    (hsync : ∀ y, n.sync = some y → y.Ok S (Function.update c i n) n) :
    DiffsOk S (Function.update c i n) := by
  have hgrows := grows_update hn
  intro j
  by_cases hj : j = i
  · subst hj
    rw [Function.update_self]
    exact ⟨hok, hsync⟩
  · rw [Function.update_of_ne hj]
    exact ⟨(h j).1, fun y hy => ((h j).2 y hy).grows hgrows (.refl _)⟩

/-! ### The operations -/

omit [DecidableEq ι] in
theorem getDiff_grows (n : DiffStaker ι Core Summary Diff) (nonce : Nat) (summary : Summary) :
    n.Grows (n.getDiff nonce summary) :=
  ⟨Channel.call_grows _ _, List.prefix_rfl⟩

omit [DecidableEq ι] in
theorem withCore_grows (n : DiffStaker ι Core Summary Diff) (nonce : Nat) (core : Core) :
    n.Grows (n.withCore nonce core) :=
  ⟨.refl _, List.prefix_append _ _⟩

omit [DecidableEq ι] in
theorem DiffStaker.Ok.getDiff (h : n.Ok S) (nonce : Nat) (summary : Summary) :
    (n.getDiff nonce summary).Ok S := by
  refine ⟨h.channel.call _, fun hmem => ?_⟩
  unfold DiffStaker.getDiff at hmem
  rw [Channel.answered_call] at hmem
  exact h.answered hmem

omit [DecidableEq ι] in
theorem DiffStaker.Ok.withCore (h : n.Ok S) (nonce : Nat) (core : Core) :
    (n.withCore nonce core).Ok S := by
  refine ⟨h.channel, fun hmem => (h.answered hmem).imp_right ?_⟩
  rintro ⟨core', hcore', hdiffs⟩
  exact ⟨core', List.mem_append_left _ hcore', hdiffs⟩

/-- A round that starts, or that has applied something. -/
theorem DiffsOk.withCore (h : DiffsOk S c) (i : ι) (nonce : Nat) (core : Core) :
    DiffsOk S (Function.update c i ((c i).withCore nonce core)) := by
  refine h.update (withCore_grows _ _ _) ((h i).1.withCore nonce core) ?_
  rintro _ ⟨⟩
  exact ⟨List.mem_append_right _ List.mem_cons_self, fun _ _ hasked => by cases hasked⟩

theorem DiffsOk.getDiff (h : DiffsOk S c) (i : ι) (nonce : Nat) (summary : Summary) :
    DiffsOk S (Function.update c i ((c i).getDiff nonce summary)) :=
  h.update (getDiff_grows _ _ _) ((h i).1.getDiff nonce summary) fun y hy =>
    ((h i).2 y hy).grows (grows_update (getDiff_grows _ _ _)) (getDiff_grows _ _ _)

omit [DecidableEq ι] in
/-- An answer of `respond_loop`. -/
theorem DiffStaker.Ok.respond (h : n.Ok S) {y : CoreSync ι Core}
    (hy : (y.nonce, y.core) ∈ n.cores) {requests : Channel (Nat × Summary) (List Diff)}
    (hrespond : n.requests.respond (y.answer S) = some requests) :
    DiffStaker.Ok S { n with requests := requests } := by
  refine ⟨h.channel.respond hrespond, ?_⟩
  obtain ⟨id, req, rest, -, rfl⟩ := Channel.respond_eq hrespond
  intro id' req' diffs hmem
  rcases List.mem_append.mp hmem with hold | hnew
  · exact h.answered hold
  · cases List.mem_singleton.mp hnew
    unfold CoreSync.answer
    split
    · next hnonce => exact Or.inr ⟨y.core, hnonce ▸ hy, rfl⟩
    · exact Or.inl rfl

/-- A request goes out: the call is made at the other staker, with the summary of the core. -/
theorem DiffsOk.ask (h : DiffsOk S c) {nonce : Nat} {core : Core} (route : ι)
    (hsync : (c i).sync = some ⟨nonce, core, none⟩) :
    let c₁ := Function.update c route ((c route).getDiff nonce (S.summary core))
    let c₂ := Function.update c₁ i
      { c₁ i with sync := some ⟨nonce, core, some (route, (c route).requests.calls)⟩ }
    DiffsOk S c₂ ∧ ∀ j, (c j).Grows (c₂ j) := by
  intro c₁ c₂
  have h₁ : DiffsOk S c₁ := h.getDiff route nonce (S.summary core)
  have hgrows₁ : ∀ j, (c j).Grows (c₁ j) := grows_update (getDiff_grows _ _ _)
  have hgrows₂ : ∀ j, (c₁ j).Grows (c₂ j) := grows_update ⟨.refl _, List.prefix_rfl⟩
  have hmade : (c₁ route).requests.Made (c route).requests.calls (nonce, S.summary core) := by
    unfold c₁
    rw [Function.update_self]
    exact Channel.made_call _ _
  refine ⟨h₁.update ⟨.refl _, List.prefix_rfl⟩ ⟨(h₁ i).1.channel, (h₁ i).1.answered⟩ ?_,
    fun j => (hgrows₁ j).trans (hgrows₂ j)⟩
  rintro _ ⟨⟩
  refine ⟨(hgrows₁ i).cores.subset ((h i).2 _ hsync).1, ?_⟩
  rintro _ _ ⟨⟩
  exact (hgrows₂ route).requests.made hmade

/-! ### One step, all runs -/

/-- **One step** keeps what is known, and takes nothing back. -/
theorem diffStep_ok (h : DiffsOk S c) {label : ι × DiffEvent ι Core Summary Diff}
    (hstep : diffStep S c label = some c') : DiffsOk S c' ∧ ∀ j, (c j).Grows (c' j) := by
  obtain ⟨i, e⟩ := label
  cases e with
  | start nonce core =>
    simp only [diffStep] at hstep
    split at hstep
    · cases hstep
      exact ⟨h.withCore i nonce core, grows_update (withCore_grows _ _ _)⟩
    · cases hstep
  | stop =>
    cases hstep
    refine ⟨h.update ⟨.refl _, List.prefix_rfl⟩ ⟨(h i).1.channel, (h i).1.answered⟩ ?_,
      grows_update ⟨.refl _, List.prefix_rfl⟩⟩
    intro y hy
    cases hy
  | ask route =>
    simp only [diffStep] at hstep
    split at hstep
    · next nonce core hsync =>
      cases hstep
      exact h.ask route hsync
    · cases hstep
  | receive =>
    simp only [diffStep] at hstep
    split at hstep
    · next nonce core route id hsync =>
      obtain ⟨diffs, -, rfl⟩ := Option.map_eq_some_iff.mp hstep
      exact ⟨h.withCore i nonce _, grows_update (withCore_grows _ _ _)⟩
    · cases hstep
  | giveUp =>
    simp only [diffStep] at hstep
    split at hstep
    · next nonce core asked hsync =>
      cases hstep
      refine ⟨h.update ⟨.refl _, List.prefix_rfl⟩ ⟨(h i).1.channel, (h i).1.answered⟩ ?_,
        grows_update ⟨.refl _, List.prefix_rfl⟩⟩
      rintro _ ⟨⟩
      exact ⟨((h i).2 _ hsync).1, fun _ _ hasked => by cases hasked⟩
    · cases hstep
  | hear diffs =>
    simp only [diffStep] at hstep
    split at hstep
    · next nonce core hsync =>
      cases hstep
      exact ⟨h.withCore i nonce _, grows_update (withCore_grows _ _ _)⟩
    · cases hstep
  | respond =>
    simp only [diffStep] at hstep
    split at hstep
    · next y hsync =>
      obtain ⟨requests, hrespond, rfl⟩ := Option.map_eq_some_iff.mp hstep
      have hy := (h i).2 y hsync
      have hgrows : (c i).Grows { c i with requests := requests } :=
        ⟨Channel.respond_grows hrespond, List.prefix_rfl⟩
      refine ⟨h.update hgrows ((h i).1.respond hy.1 hrespond) ?_, grows_update hgrows⟩
      intro y' hy'
      exact ((h i).2 y' hy').grows (grows_update hgrows) hgrows
    · cases hstep
  | call nonce summary =>
    cases hstep
    exact ⟨h.getDiff i nonce summary, grows_update (getDiff_grows _ _ _)⟩

theorem diffNetwork_reachable (hc : (diffNetwork S).Reachable c) : DiffsOk S c := by
  refine hc.invariant ?_ fun c label c' h hstep => (diffStep_ok h hstep).1
  intro c hc i
  rw [hc i]
  exact ⟨⟨.empty, fun hmem => absurd hmem List.not_mem_nil⟩, fun y hy => by cases hy⟩

theorem diffNetwork_grows (hc : (diffNetwork S).Reachable c) (hrun : (diffNetwork S).Reaches c c') :
    ∀ j, (c j).Grows (c' j) := by
  have hboth : DiffsOk S c' ∧ ∀ j, (c j).Grows (c' j) := by
    refine hrun.invariant (I := fun c' => DiffsOk S c' ∧ ∀ j, (c j).Grows (c' j))
      ⟨diffNetwork_reachable hc, fun j => .refl _⟩ ?_
    rintro c₁ label c₂ ⟨h, hgrows⟩ hstep
    obtain ⟨h', hgrows'⟩ := diffStep_ok h hstep
    exact ⟨h', fun j => (hgrows j).trans (hgrows' j)⟩
  exact hboth.2

/-- **Each request is answered once, in turn.** In every run of the stakers, whoever calls `get_diff`
and however rounds start and stop, at most a hundred requests wait at a staker; a call that was made
either waits or has got its one reply, for good; and a request that waits has got it as soon as the
staker has answered one more than were ahead of it. -/
theorem diffs_in_turn (hc : (diffNetwork S).Reachable c) (hrun : (diffNetwork S).Reaches c c')
    (j : ι) {id : Nat} {req : Nat × Summary} (hmade : (c j).requests.Made id req) :
    (c j).requests.queue.length ≤ 100 ∧
      ((c j).requests.reply? [] id = none ↔ (id, req) ∈ (c j).requests.queue) ∧
      (∀ diffs, (c j).requests.reply? [] id = some diffs → (c' j).requests.reply? [] id = some diffs) ∧
      ∀ ahead rest, (c j).requests.queue = ahead ++ (id, req) :: rest →
        (c j).requests.answered.length + ahead.length < (c' j).requests.answered.length →
        ((c' j).requests.reply? [] id).isSome = true := by
  have hok := (diffNetwork_reachable hc j).1.channel
  have hok' := (diffNetwork_reachable (hc.trans hrun) j).1.channel
  have hgrows := (diffNetwork_grows hc hrun j).requests
  refine ⟨hok.length_le, hok.reply?_eq_none_iff hmade [], ?_, ?_⟩
  · exact fun diffs hreply => hok.reply?_grows hok' hgrows hmade hreply
  · intro ahead rest hqueue hserved
    obtain ⟨ans, hans⟩ := hgrows.answered_in_turn hqueue hserved
    rw [(hok'.reply?_eq_some_iff (hgrows.made hmade) []).mpr (Or.inl hans)]
    rfl

/-- **Rounds do not mix.** What a staker's core applies of another staker's reply is nothing, or the
diff of a core that a round of the other with the same nonce has had, for the summary of the core it
is applied to. -/
theorem diffs_same_nonce (hc : (diffNetwork S).Reachable c)
    (hstep : diffStep S c (i, .receive) = some c') :
    ∃ nonce core route id diffs, (c i).sync = some ⟨nonce, core, some (route, id)⟩ ∧
      (c' i).sync = some ⟨nonce, diffs.foldl S.applyOneDiff core, none⟩ ∧
      (diffs = [] ∨ ∃ core', (nonce, core') ∈ (c route).cores ∧
        diffs = S.getDiff core' (S.summary core)) := by
  have hok := diffNetwork_reachable hc
  simp only [diffStep] at hstep
  split at hstep
  · next nonce core route id hsync =>
    obtain ⟨diffs, hreply, rfl⟩ := Option.map_eq_some_iff.mp hstep
    refine ⟨nonce, core, route, id, diffs, hsync, ?_, ?_⟩
    · rw [Function.update_self]
      rfl
    · have hmade := ((hok i).2 _ hsync).2 route id rfl
      rcases ((hok route).1.channel.reply?_eq_some_iff hmade []).mp hreply with hanswered | ⟨-, rfl⟩
      · exact (hok route).1.answered hanswered
      · exact Or.inl rfl
  · cases hstep

end Invariant

/-! ## Two stakers -/

/-- A core is the list of what it has seen, and tells how much that is. -/
def listCore : StreamletteCore (List Nat) Nat Nat where
  summary := List.length
  getDiff core summary := core.drop summary
  applyOneDiff core diff := core ++ [diff]

def idleStakers : Bool → DiffStaker Bool (List Nat) Nat Nat := fun _ => ⟨none, .empty, []⟩

def stakersAfter (c : Bool → DiffStaker Bool (List Nat) Nat Nat)
    (labels : List (Bool × DiffEvent Bool (List Nat) Nat Nat)) :
    Bool → DiffStaker Bool (List Nat) Nat Nat :=
  (Lts.run (diffStep listCore) c labels).getD c

/-- Both are in a round of nonce 5; the one behind has asked the other, who has a request of an older
round to answer first. -/
def asked : Bool → DiffStaker Bool (List Nat) Nat Nat :=
  stakersAfter idleStakers
    [(false, .start 5 [1]), (true, .start 5 [1, 2]), (true, .call 4 0), (false, .ask true)]

def bothAnswered : Bool → DiffStaker Bool (List Nat) Nat Nat :=
  stakersAfter asked [(true, .respond), (true, .respond)]

theorem stakersAfter_reaches {c : Bool → DiffStaker Bool (List Nat) Nat Nat}
    {labels : List (Bool × DiffEvent Bool (List Nat) Nat Nat)}
    (h : (Lts.run (diffStep listCore) c labels).isSome) :
    (diffNetwork listCore).Reaches c (stakersAfter c labels) :=
  Lts.reaches_end h

theorem asked_reachable : (diffNetwork listCore).Reachable asked :=
  ⟨idleStakers, fun _ => rfl, stakersAfter_reaches (by decide)⟩

theorem asked_reaches : (diffNetwork listCore).Reaches asked bothAnswered :=
  stakersAfter_reaches (by decide)

theorem diffs_in_turn_second : ((bothAnswered true).requests.reply? [] 1).isSome = true := by
  have hmade : (asked true).requests.Made 1 (5, 1) := Or.inl (by decide)
  obtain ⟨-, -, -, hturn⟩ := diffs_in_turn asked_reachable asked_reaches true hmade
  exact hturn [(0, (4, 0))] [] (by decide) (by decide)

theorem diffs_same_nonce_second :
    ∃ c' diffs, diffStep listCore bothAnswered (false, .receive) = some c' ∧
      (c' false).sync = some ⟨5, diffs.foldl listCore.applyOneDiff [1], none⟩ ∧
      (diffs = [] ∨ ∃ core', (5, core') ∈ (bothAnswered true).cores ∧ diffs = core'.drop 1) := by
  have hsome : (diffStep listCore bothAnswered (false, .receive)).isSome := by decide
  obtain ⟨c', hstep⟩ := Option.isSome_iff_exists.mp hsome
  obtain ⟨nonce, core, route, id, diffs, hsync, hsync', hdiffs⟩ :=
    diffs_same_nonce (asked_reachable.trans asked_reaches) hstep
  have hfirst : (bothAnswered false).sync = some ⟨5, [1], some (true, 1)⟩ := by decide
  rw [hfirst] at hsync
  cases hsync
  exact ⟨c', diffs, hstep, hsync', hdiffs⟩

end Melnode
