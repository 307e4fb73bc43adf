import Ipfs.Lib.Run

/-!
# Parties that send messages

Whatever a party has sent may arrive at any party, in any order, any number of times, or never.
-/

/-- What a party does of its own, what it does with a message that it is handed in some context, and what it has
sent so far. -/
structure Parties (σ ε κ μ : Type) where
  act : ε → σ → σ
  receive : κ → μ → σ → σ
  sent : σ → List μ

namespace Parties

inductive Event (π ε κ : Type)
  | act (party : π) (event : ε)
  -- what the sender sent at that place
  | deliver (party : π) (context : κ) (sender : π) (place : Nat)

section
variable {π σ ε κ μ : Type} [DecidableEq π] (parties : Parties σ ε κ μ)

def machine : Machine (π → σ) (Event π ε κ) where
  step states event := match event with
    | .act party event => some (Function.update states party (parties.act event (states party)))
    | .deliver party context sender place => (parties.sent (states sender))[place]?.map fun message =>
        Function.update states party (parties.receive context message (states party))

/-- A condition on what a party does of its own, in the state that it is in. -/
def Event.Meets (Allowed : σ → ε → Prop) (states : π → σ) : Event π ε κ → Prop
  | .act party event => Allowed (states party) event
  | .deliver .. => True

variable {parties} {Inv : σ → Prop} {Good : μ → Prop} {Allowed : σ → ε → Prop}

theorem run_act (states : π → σ) (party : π) (event : ε) (events : List (Event π ε κ)) :
    parties.machine.run states (.act party event :: events) =
      parties.machine.run (Function.update states party (parties.act event (states party))) events := rfl

theorem run_deliver {states : π → σ} {sender : π} {place : Nat} {message : μ}
    (isSent : (parties.sent (states sender))[place]? = some message) (party : π) (context : κ)
    (events : List (Event π ε κ)) :
    parties.machine.run states (.deliver party context sender place :: events) =
      parties.machine.run (Function.update states party (parties.receive context message (states party))) events := by
  rw [Machine.run]
  simp only [machine, isSent, Option.map_some, Option.bind_some]

theorem step_keeps (good : ∀ s, Inv s → ∀ message ∈ parties.sent s, Good message)
    (acts : ∀ s event, Inv s → Allowed s event → Inv (parties.act event s))
    (receives : ∀ s context message, Inv s → Good message → Inv (parties.receive context message s))
    (states : π → σ) (event : Event π ε κ) (states' : π → σ) (holds : ∀ party, Inv (states party))
    (allowed : event.Meets Allowed states) (stepped : parties.machine.step states event = some states') :
    ∀ party, Inv (states' party) := by
  have updated (party : π) {s : σ} (kept : Inv s) : ∀ other, Inv (Function.update states party s other) := by
    intro other
    by_cases own : other = party
    · rw [own, Function.update_self]
      exact kept
    · rw [Function.update_of_ne own]
      exact holds other
  cases event with
  | act party event =>
      obtain rfl := Option.some.inj stepped
      exact updated party (acts _ event (holds party) allowed)
  | deliver party context sender place =>
      obtain ⟨message, isSent, rfl⟩ := Option.map_eq_some_iff.mp stepped
      exact updated party (receives _ context message (holds party)
        (good _ (holds sender) message (List.mem_of_getElem? isSent)))

/-- What each party keeps of its own and with good messages holds of all parties in every run, if the parties send
good messages only. -/
theorem run_keeps (good : ∀ s, Inv s → ∀ message ∈ parties.sent s, Good message)
    (acts : ∀ s event, Inv s → Allowed s event → Inv (parties.act event s))
    (receives : ∀ s context message, Inv s → Good message → Inv (parties.receive context message s))
    {states states' : π → σ} {events : List (Event π ε κ)} (holds : ∀ party, Inv (states party))
    (meets : parties.machine.RunMeets (fun states event => event.Meets Allowed states) states events)
    (ran : parties.machine.run states events = some states') : ∀ party, Inv (states' party) :=
  Machine.run_invariant (fun states : π → σ => ∀ party, Inv (states party)) (step_keeps good acts receives) holds meets ran

end
end Parties
