import Mathlib.Data.List.Nodup
import Mathlib.Data.List.Range

/-!
# A bounded queue of calls

Callers put requests into a queue with room for some of them; a call that finds no room is refused at
once. A server answers the request in front. Calls are numbered as they are made, and `Channel.Ok` is
what holds of every queue so used: each call is waiting, answered or refused, and only one of these,
and the requests that got in are answered in the order of the calls.
-/

namespace Melnode.Lib

universe u v

/-- A queue of requests of `α`, and what has become of the others; answers are of `β`. -/
structure Channel (α : Type u) (β : Type v) where
  queue : List (Nat × α)
  answered : List (Nat × α × β)
  refused : List (Nat × α)
  deriving DecidableEq, Repr

namespace Channel

variable {α : Type u} {β : Type v}

def empty : Channel α β := ⟨[], [], []⟩

/-- The number of calls so far, and of the next one. -/
def calls (c : Channel α β) : Nat := c.queue.length + c.answered.length + c.refused.length

/-- A call. -/
def call (capacity : Nat) (c : Channel α β) (req : α) : Channel α β :=
  if c.queue.length < capacity then { c with queue := c.queue ++ [(c.calls, req)] }
  else { c with refused := c.refused ++ [(c.calls, req)] }

/-- The server answers the request in front. -/
def respond (c : Channel α β) (answer : α → β) : Option (Channel α β) :=
  match c.queue with
  | [] => none
  | (id, req) :: rest =>
    some { c with queue := rest, answered := c.answered ++ [(id, req, answer req)] }

/-- The call has been made with the request. -/
def Made (c : Channel α β) (id : Nat) (req : α) : Prop :=
  (id, req) ∈ c.queue ∨ (∃ ans, (id, req, ans) ∈ c.answered) ∨ (id, req) ∈ c.refused

/-- The requests that got in, in the order of their calls. -/
def admitted (c : Channel α β) : List (Nat × α) :=
  c.answered.map (fun a => (a.1, a.2.1)) ++ c.queue

/-- What the caller gets, once it does. -/
def reply? (refusal : β) (c : Channel α β) (id : Nat) : Option β :=
  match c.answered.find? fun a => decide (a.1 = id) with
  | some a => some a.2.2
  | none => if (id ∈ c.refused.map Prod.fst) then some refusal else none

/-- What holds of every queue: it has room for what it holds, each call has one number and one fate,
and those that got in are in the order of the calls. -/
structure Ok (capacity : Nat) (c : Channel α β) : Prop where
  length_le : c.queue.length ≤ capacity
  numbered : ((c.admitted ++ c.refused).map Prod.fst).Perm (List.range c.calls)
  inOrder : (c.admitted.map Prod.fst).Pairwise (· < ·)

/-- How a queue changes: nothing that has been made or answered is taken back. -/
structure Grows (c c' : Channel α β) : Prop where
  admitted : c.admitted <+: c'.admitted
  answered : c.answered <+: c'.answered
  refused : c.refused <+: c'.refused

section Basic

variable {c c' c'' : Channel α β} {capacity id : Nat} {req : α} {ans : β}

theorem mem_admitted :
    (id, req) ∈ c.admitted ↔ (id, req) ∈ c.queue ∨ ∃ ans, (id, req, ans) ∈ c.answered := by
  unfold admitted
  simp [or_comm]

theorem made_iff : c.Made id req ↔ (id, req) ∈ c.admitted ++ c.refused := by
  rw [List.mem_append, mem_admitted, or_assoc]
  rfl

theorem Grows.refl (c : Channel α β) : Grows c c :=
  ⟨List.prefix_rfl, List.prefix_rfl, List.prefix_rfl⟩

theorem Grows.trans (h : Grows c c') (h' : Grows c' c'') : Grows c c'' :=
  ⟨h.admitted.trans h'.admitted, h.answered.trans h'.answered, h.refused.trans h'.refused⟩

theorem Grows.made (h : Grows c c') (hmade : c.Made id req) : c'.Made id req := by
  rw [made_iff, List.mem_append] at hmade ⊢
  exact hmade.imp (fun hmem => h.admitted.subset hmem) (fun hmem => h.refused.subset hmem)

/-- **In turn**: a request is answered once the server has answered as many more as were ahead of
it. -/
theorem Grows.answered_in_turn (h : Grows c c') {ahead rest : List (Nat × α)}
    (hqueue : c.queue = ahead ++ (id, req) :: rest)
    (hserved : c.answered.length + ahead.length < c'.answered.length) :
    ∃ ans, (id, req, ans) ∈ c'.answered := by
  have hat : c.admitted[c.answered.length + ahead.length]? = some (id, req) := by
    unfold Channel.admitted
    rw [List.getElem?_append_right (by simp), hqueue]
    simp
  have hat' : c'.admitted[c.answered.length + ahead.length]? = some (id, req) := by
    obtain ⟨added, hadded⟩ := h.admitted
    rw [← hadded, List.getElem?_append_left (List.getElem?_eq_some_iff.mp hat).1]
    exact hat
  unfold Channel.admitted at hat'
  rw [List.getElem?_append_left (by simpa using hserved)] at hat'
  obtain ⟨⟨id', req', ans⟩, hmem, heq⟩ := List.mem_map.mp (List.mem_of_getElem? hat')
  cases heq
  exact ⟨ans, hmem⟩

end Basic

section Ops

variable {c c' : Channel α β} {capacity id : Nat} {req : α} {ans : β}

theorem call_grows (capacity : Nat) (req : α) : Grows c (c.call capacity req) := by
  unfold call
  split
  · exact ⟨by unfold admitted; rw [← List.append_assoc]; exact List.prefix_append _ _,
      List.prefix_rfl, List.prefix_rfl⟩
  · exact ⟨List.prefix_rfl, List.prefix_rfl, List.prefix_append _ _⟩

theorem answered_call (capacity : Nat) (req : α) : (c.call capacity req).answered = c.answered := by
  unfold call
  split
  · rfl
  · rfl

theorem made_call (capacity : Nat) (req : α) : (c.call capacity req).Made c.calls req := by
  unfold call
  split
  · exact Or.inl (List.mem_append_right _ List.mem_cons_self)
  · exact Or.inr (Or.inr (List.mem_append_right _ List.mem_cons_self))

theorem calls_call (capacity : Nat) (req : α) : (c.call capacity req).calls = c.calls + 1 := by
  unfold call
  split
  · simp only [calls, List.length_append, List.length_singleton]
    omega
  · simp only [calls, List.length_append, List.length_singleton]
    omega

theorem respond_eq {answer : α → β} (h : c.respond answer = some c') :
    ∃ id req rest, c.queue = (id, req) :: rest ∧
      c' = { c with queue := rest, answered := c.answered ++ [(id, req, answer req)] } := by
  unfold respond at h
  split at h
  · cases h
  · next id req rest hqueue =>
    cases h
    exact ⟨id, req, rest, hqueue, rfl⟩

theorem admitted_respond {answer : α → β} (h : c.respond answer = some c') :
    c'.admitted = c.admitted := by
  obtain ⟨id, req, rest, hqueue, rfl⟩ := respond_eq h
  unfold admitted
  simp [hqueue]

theorem calls_respond {answer : α → β} (h : c.respond answer = some c') : c'.calls = c.calls := by
  obtain ⟨id, req, rest, hqueue, rfl⟩ := respond_eq h
  simp only [calls, hqueue, List.length_append, List.length_cons, List.length_nil]
  omega

theorem respond_grows {answer : α → β} (h : c.respond answer = some c') : Grows c c' := by
  refine ⟨(admitted_respond h).symm ▸ List.prefix_rfl, ?_, ?_⟩
  · obtain ⟨id, req, rest, -, rfl⟩ := respond_eq h
    exact List.prefix_append _ _
  · obtain ⟨id, req, rest, -, rfl⟩ := respond_eq h
    exact List.prefix_rfl

end Ops

namespace Ok

variable {c c' : Channel α β} {capacity id : Nat} {req req' : α} {ans ans' : β}

theorem empty : Ok capacity (empty : Channel α β) where
  length_le := Nat.zero_le _
  numbered := .refl _
  inOrder := .nil

theorem lt_calls (h : c.Ok capacity) (hmem : id ∈ (c.admitted ++ c.refused).map Prod.fst) :
    id < c.calls :=
  List.mem_range.mp (h.numbered.subset hmem)

/-- One more number. -/
theorem numbered_succ {l : List Nat} {n : Nat} (h : l.Perm (List.range n)) :
    (l ++ [n]).Perm (List.range (n + 1)) := by
  rw [List.range_succ]
  exact h.append_right [n]

theorem call (h : c.Ok capacity) (req : α) : (c.call capacity req).Ok capacity := by
  have hcalls := calls_call (c := c) capacity req
  unfold Channel.call at hcalls ⊢
  split at hcalls
  · next hroom =>
    rw [if_pos hroom]
    have hadmitted : Channel.admitted { c with queue := c.queue ++ [(c.calls, req)] } =
        c.admitted ++ [(c.calls, req)] := (List.append_assoc _ _ _).symm
    refine ⟨?_, ?_, ?_⟩
    · rw [List.length_append]
      exact hroom
    · rw [hcalls, hadmitted]
      refine List.Perm.trans ?_ (numbered_succ h.numbered)
      simp only [List.map_append, List.map_cons, List.map_nil, List.append_assoc]
      exact List.Perm.append_left _ List.perm_append_comm
    · rw [hadmitted, List.map_append, List.pairwise_append]
      refine ⟨h.inOrder, List.pairwise_singleton _ _, ?_⟩
      intro a ha b hb
      cases List.mem_singleton.mp hb
      apply h.lt_calls
      rw [List.map_append]
      exact List.mem_append_left _ ha
  · next hfull =>
    rw [if_neg hfull]
    refine ⟨h.length_le, ?_, h.inOrder⟩
    rw [hcalls]
    refine List.Perm.trans ?_ (numbered_succ h.numbered)
    simp only [Channel.admitted, List.map_append, List.map_cons, List.map_nil, List.append_assoc]
    exact .refl _

theorem respond (h : c.Ok capacity) {answer : α → β} (hrespond : c.respond answer = some c') :
    c'.Ok capacity := by
  have hadmitted := admitted_respond hrespond
  have hcalls := calls_respond hrespond
  obtain ⟨id, req, rest, hqueue, rfl⟩ := respond_eq hrespond
  refine ⟨?_, ?_, ?_⟩
  · have hlength := h.length_le
    rw [hqueue] at hlength
    exact Nat.le_of_succ_le hlength
  · rw [hadmitted, hcalls]
    exact h.numbered
  · rw [hadmitted]
    exact h.inOrder

theorem nodup (h : c.Ok capacity) : ((c.admitted ++ c.refused).map Prod.fst).Nodup :=
  h.numbered.nodup_iff.mpr List.nodup_range

/-- A number stands for one call. -/
theorem made_unique (h : c.Ok capacity) (hmade : c.Made id req) (hmade' : c.Made id req') :
    req = req' := by
  rw [made_iff] at hmade hmade'
  exact congrArg Prod.snd (List.inj_on_of_nodup_map h.nodup hmade hmade' rfl)

/-- A call is answered once, and not if it waits or was refused. -/
theorem apart (h : c.Ok capacity) :
    (c.answered.map Prod.fst).Nodup ∧
      (∀ {id : Nat}, id ∈ c.queue.map Prod.fst → id ∉ c.answered.map Prod.fst) ∧
      ∀ {id : Nat}, id ∈ c.refused.map Prod.fst →
        id ∉ c.answered.map Prod.fst ∧ id ∉ c.queue.map Prod.fst := by
  have hnodup := h.nodup
  unfold admitted at hnodup
  rw [List.map_append, List.map_append, List.map_map] at hnodup
  obtain ⟨hadmitted, -, hrefused⟩ := List.nodup_append.mp hnodup
  obtain ⟨hanswered, -, hqueue⟩ := List.nodup_append.mp hadmitted
  refine ⟨hanswered, fun hid hans => hqueue _ hans _ hid rfl, fun hid => ⟨fun hans => ?_, fun hq => ?_⟩⟩
  · exact hrefused _ (List.mem_append_left _ hans) _ hid rfl
  · exact hrefused _ (List.mem_append_right _ hq) _ hid rfl

/-- The reply to a call is the answer to its request, or the refusal. -/
theorem reply?_eq_some_iff (h : c.Ok capacity) (hmade : c.Made id req) (refusal : β) :
    c.reply? refusal id = some ans ↔
      (id, req, ans) ∈ c.answered ∨ (id, req) ∈ c.refused ∧ refusal = ans := by
  obtain ⟨hnodup, -, hrefused⟩ := h.apart
  unfold reply?
  cases hfind : c.answered.find? fun a => decide (a.1 = id) with
  | some a =>
    obtain ⟨id', req', ans'⟩ := a
    have hid := List.find?_some hfind
    obtain rfl : id' = id := of_decide_eq_true hid
    have hmem := List.mem_of_find?_eq_some hfind
    obtain rfl := h.made_unique hmade (Or.inr (Or.inl ⟨ans', hmem⟩))
    dsimp only
    rw [Option.some.injEq]
    constructor
    · rintro rfl
      exact Or.inl hmem
    · rintro (hans | ⟨href, -⟩)
      · exact congrArg (fun a => a.2.2) (List.inj_on_of_nodup_map hnodup hmem hans rfl)
      · exact absurd (List.mem_map_of_mem hmem) (hrefused (List.mem_map_of_mem href)).1
  | none =>
    have hnot : ∀ req ans, (id, req, ans) ∉ c.answered :=
      fun req ans hans => absurd (decide_eq_true rfl) (List.find?_eq_none.mp hfind _ hans)
    rw [Option.ite_none_right_eq_some, Option.some.injEq]
    constructor
    · rintro ⟨hmem, heq⟩
      obtain ⟨⟨id', req'⟩, href, rfl⟩ := List.mem_map.mp hmem
      obtain rfl := h.made_unique hmade (Or.inr (Or.inr href))
      exact Or.inr ⟨href, heq⟩
    · rintro (hans | ⟨href, heq⟩)
      · exact absurd hans (hnot req ans)
      · exact ⟨List.mem_map_of_mem href, heq⟩

/-- **Each call waits or has its reply.** -/
theorem reply?_eq_none_iff (h : c.Ok capacity) (hmade : c.Made id req) (refusal : β) :
    c.reply? refusal id = none ↔ (id, req) ∈ c.queue := by
  obtain ⟨-, hqueue, hrefused⟩ := h.apart
  constructor
  · intro hnone
    rcases hmade with hwaits | ⟨ans, hans⟩ | href
    · exact hwaits
    · have hsome := (h.reply?_eq_some_iff (Or.inr (Or.inl ⟨ans, hans⟩)) refusal).mpr
        (Or.inl hans)
      rw [hnone] at hsome
      cases hsome
    · have hsome := (h.reply?_eq_some_iff (Or.inr (Or.inr href)) refusal).mpr
        (Or.inr ⟨href, rfl⟩)
      rw [hnone] at hsome
      cases hsome
  · intro hwaits
    by_contra hsome
    obtain ⟨ans, hans⟩ := Option.ne_none_iff_exists'.mp hsome
    have hid := List.mem_map_of_mem (f := Prod.fst) hwaits
    rcases (h.reply?_eq_some_iff hmade refusal).mp hans with hanswered | ⟨href, -⟩
    · exact hqueue hid (List.mem_map_of_mem hanswered)
    · exact (hrefused (List.mem_map_of_mem href)).2 hid

/-- A reply is final. -/
theorem reply?_grows (h : c.Ok capacity) (h' : c'.Ok capacity) (hgrows : Grows c c')
    (hmade : c.Made id req) {refusal : β} (hreply : c.reply? refusal id = some ans) :
    c'.reply? refusal id = some ans :=
  (h'.reply?_eq_some_iff (hgrows.made hmade) refusal).mpr
    (((h.reply?_eq_some_iff hmade refusal).mp hreply).imp (fun hans => hgrows.answered.subset hans)
      (And.imp_left fun href => hgrows.refused.subset href))

end Ok

end Channel

end Melnode.Lib
