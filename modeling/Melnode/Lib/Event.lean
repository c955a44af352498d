/-!
# Events

Whoever listens to an event gets a ticket, and is notified by the first notification after that. A
listener that checks a condition after it has listened, and sleeps when the check fails, misses
nothing if whoever makes the condition true notifies later: until then the notification is owed
(`Event.Watches`).
-/

namespace Melnode.Lib

/-- An event, by how often it has been notified of. -/
structure Event where
  notified : Nat
  deriving DecidableEq

namespace Event

def new : Event := ⟨0⟩

/-- The ticket of a new listener. -/
def listen (e : Event) : Nat := e.notified

/-- Wakes every listener. -/
def notify (e : Event) : Event := ⟨e.notified + 1⟩

/-- The listener with this ticket has been woken. -/
def Notified (e : Event) (ticket : Nat) : Prop := ticket < e.notified

instance (e : Event) (ticket : Nat) : Decidable (e.Notified ticket) :=
  inferInstanceAs (Decidable (ticket < e.notified))

/-- A listener sleeps soundly: once the condition holds, it has been woken or a notification is
owed. -/
structure Watches (e : Event) (cond owed : Prop) (ticket : Nat) : Prop where
  registered : ticket ≤ e.notified
  covered : cond → e.Notified ticket ∨ owed

variable {e e' : Event} {cond cond' owed owed' : Prop} {ticket : Nat}

theorem Watches.of_unmet (h : ticket ≤ e.notified) (hcond : ¬ cond) : e.Watches cond owed ticket :=
  ⟨h, fun hc => absurd hc hcond⟩

/-- Whoever makes the condition true owes a notification, and only notifying settles that. -/
theorem Watches.step (h : e.Watches cond owed ticket) (hevent : e.notified ≤ e'.notified)
    (hcond : cond' → cond ∨ owed') (howed : owed → owed' ∨ e.notified < e'.notified) :
    e'.Watches cond' owed' ticket := by
  refine ⟨Nat.le_trans h.registered hevent, fun hc => ?_⟩
  rcases hcond hc with hc | ho
  · rcases h.covered hc with hn | ho
    · exact .inl (Nat.lt_of_lt_of_le hn hevent)
    · rcases howed ho with ho | hlt
      · exact .inr ho
      · exact .inl (Nat.lt_of_le_of_lt h.registered hlt)
  · exact .inr ho

end Event

end Melnode.Lib
