import Jobyard.Simulation.Peer

/-!
Dialogues as they were held. A transcript has every request with its answer, the first one first;
what is true of all transcripts is true whatever the server answers.
-/

namespace Jobyard.Sql

structure Said where
  request : Request
  reply : request.Reply

abbrev Transcript := List Said

/-- A dialogue that was held to its end, what was said, and what it ended with. -/
inductive Held {α : Type} : Dialogue α → Transcript → α → Prop
  | done (value : α) : Held (.done value) [] value
  | call (request : Request) (next : request.Reply → Dialogue α) (reply : request.Reply)
    {said : Transcript} {value : α} (hnext : Held (next reply) said value) :
    Held (.call request next) (⟨request, reply⟩ :: said) value

variable {α β : Type} {said : Transcript}

theorem held_done_iff {value result : α} :
    Held (.done value) said result ↔ said = [] ∧ result = value := by
  constructor
  · intro h
    cases h
    exact ⟨rfl, rfl⟩
  · rintro ⟨rfl, rfl⟩
    exact .done _

theorem held_call_iff {request : Request} {next : request.Reply → Dialogue α} {result : α} :
    Held (.call request next) said result ↔
      ∃ reply rest, said = ⟨request, reply⟩ :: rest ∧ Held (next reply) rest result := by
  constructor
  · intro h
    cases h with
    | call _ _ reply hnext => exact ⟨reply, _, rfl, hnext⟩
  · rintro ⟨reply, rest, rfl, hnext⟩
    exact .call request next reply hnext

theorem held_bind_iff {d : Dialogue α} {f : α → Dialogue β} {result : β} :
    Held (d >>= f) said result ↔
      ∃ first second value, said = first ++ second ∧ Held d first value ∧
        Held (f value) second result := by
  induction d generalizing said with
  | done value =>
      rw [Interaction.done_bind]
      constructor
      · exact fun h => ⟨[], said, value, rfl, .done value, h⟩
      · rintro ⟨first, second, other, rfl, hfirst, hsecond⟩
        obtain ⟨rfl, rfl⟩ := held_done_iff.mp hfirst
        exact hsecond
  | call request next ih =>
      rw [Interaction.call_bind, held_call_iff]
      constructor
      · rintro ⟨reply, rest, rfl, hrest⟩
        obtain ⟨first, second, value, rfl, hfirst, hsecond⟩ := (ih reply).mp hrest
        exact ⟨_, second, value, rfl, .call request next reply hfirst, hsecond⟩
      · rintro ⟨first, second, value, rfl, hfirst, hsecond⟩
        obtain ⟨reply, rest, rfl, hrest⟩ := held_call_iff.mp hfirst
        exact ⟨reply, rest ++ second, rfl,
          (ih reply).mpr ⟨rest, second, value, rfl, hrest, hsecond⟩⟩

namespace Talk

theorem held_fetch_bind_iff {call : ServerCall} {statement : Statement} {f : List Row → Talk α}
    {result : Except StoreError α} :
    Held (fetch call statement >>= f).run said result ↔
      (∃ failure, said = [⟨.fetch statement, .error failure⟩] ∧
        result = .error (failure.report call)) ∨
      ∃ rows rest, said = ⟨.fetch statement, .ok rows⟩ :: rest ∧ Held (f rows).run rest result := by
  refine held_call_iff.trans ⟨?_, ?_⟩
  · rintro ⟨reply, rest, rfl, hrest⟩
    cases reply with
    | error failure =>
        obtain ⟨rfl, rfl⟩ := held_done_iff.mp hrest
        exact .inl ⟨failure, rfl, rfl⟩
    | ok rows => exact .inr ⟨rows, rest, rfl, hrest⟩
  · rintro (⟨failure, rfl, rfl⟩ | ⟨rows, rest, rfl, hrest⟩)
    · exact ⟨.error failure, [], rfl, .done _⟩
    · exact ⟨.ok rows, rest, rfl, hrest⟩

end Talk

namespace Said

def sent : Said → Simulation.Sent
  | ⟨.begin, _⟩ => .begin
  | ⟨.commit, _⟩ => .commit
  | ⟨.rollback, _⟩ => .rollback
  | ⟨.execute statement, _⟩ => .statement statement
  | ⟨.fetch statement, _⟩ => .statement statement

def failure? : Said → Option Failure
  | ⟨.begin, .error f⟩ => some f
  | ⟨.commit, .error f⟩ => some f
  | ⟨.execute _, .error f⟩ => some f
  | ⟨.fetch _, .error f⟩ => some f
  | _ => none

def isStatement : Said → Bool
  | ⟨.execute _, _⟩ => true
  | ⟨.fetch _, _⟩ => true
  | _ => false

end Said

def Transcript.statements (said : Transcript) : Transcript := said.filter Said.isStatement

end Jobyard.Sql

namespace Jobyard.Simulation.Peer

open Sql

theorem sent_answer (p : Peer) (request : Sql.Request) :
    ((answer request).run p).2.sent =
      p.sent ++ [Said.sent ⟨request, ((answer request).run p).1⟩] := by
  cases request <;> rfl

theorem exists_held {α : Type} (p : Peer) (talk : Talk α) :
    ∃ said, Held talk.run said (p.run talk).1 ∧
      (p.run talk).2.sent = p.sent ++ said.map Said.sent := by
  unfold run
  generalize talk.run = d
  induction d generalizing p with
  | done value => exact ⟨[], .done value, (List.append_nil _).symm⟩
  | call request next ih =>
      obtain ⟨said, hheld, hsent⟩ := ih ((answer request).run p).1 ((answer request).run p).2
      refine ⟨⟨request, ((answer request).run p).1⟩ :: said, .call request next _ hheld, ?_⟩
      refine hsent.trans ?_
      rw [sent_answer, List.append_assoc]
      rfl

end Jobyard.Simulation.Peer
