import TypedLambda.Interpret

/-!
# Sessions

A session is a client and a worker joined by two queues. The client sends a line and waits for its
answer before it sends the next one; the worker takes a line from the first queue, interprets it and
puts the answer into the second queue. Neither queue loses or reorders anything, and neither side
ever ends.

Each side moves on its own, so a session is a state and a list of moves in any order that the state
allows. **Main statement:** the schedule in which the two sides take turns answers every line with
what `run` makes of it (`Session.answers_eq_map_run`).
-/

namespace TypedLambda

/-- What a worker is about to do. -/
inductive Worker where
  | idle
  | interpreting (line : String)
  | replying (answer : String)
deriving DecidableEq

/-- A client, a worker and the two queues between them; all lists have the oldest line first. -/
structure Session where
  unsent : List String
  waiting : Bool
  requests : List String
  worker : Worker
  responses : List String
  received : List String
deriving DecidableEq

namespace Session

/-- A move: the client sends and receives, the worker does the rest. -/
inductive Move where
  | send
  | take
  | interpret
  | reply
  | receive
deriving DecidableEq

/-- The session of a client with lines to ask, before any move. -/
def start (lines : List String) : Session := ⟨lines, false, [], .idle, [], []⟩

/-- The session after a move, if the move is possible. -/
def step (s : Session) : Move → Option Session
  | .send =>
    match s.waiting, s.unsent with
    | false, line :: rest =>
      some { s with unsent := rest, waiting := true, requests := s.requests ++ [line] }
    | _, _ => none
  | .take =>
    match s.worker, s.requests with
    | .idle, line :: rest => some { s with worker := .interpreting line, requests := rest }
    | _, _ => none
  | .interpret =>
    match s.worker with
    | .interpreting line => some { s with worker := .replying (run line) }
    | _ => none
  | .reply =>
    match s.worker with
    | .replying answer => some { s with worker := .idle, responses := s.responses ++ [answer] }
    | _ => none
  | .receive =>
    match s.waiting, s.responses with
    | true, answer :: rest =>
      some { s with waiting := false, responses := rest, received := s.received ++ [answer] }
    | _, _ => none

/-- The session after a list of moves, if each is possible in its turn. -/
def steps (s : Session) : List Move → Option Session
  | [] => some s
  | move :: rest =>
    match s.step move with
    | some next => next.steps rest
    | none => none

/-! ## Taking turns -/

/-- The moves by which the next line is answered. -/
def exchange : List Move := [.send, .take, .interpret, .reply, .receive]

/-- Answers as many lines as a number says, one after the other. -/
def exchanges (s : Session) : Nat → Session
  | 0 => s
  | count + 1 =>
    match s.steps exchange with
    | some next => next.exchanges count
    | none => s

/-- The answers to a list of lines. -/
def answers (lines : List String) : List String := ((start lines).exchanges lines.length).received

/-- An exchange answers the next line and leaves the queues empty. -/
theorem steps_exchange (line : String) (unsent received : List String) :
    steps ⟨line :: unsent, false, [], .idle, [], received⟩ exchange
      = some ⟨unsent, false, [], .idle, [], received ++ [run line]⟩ := rfl

/-- One exchange for each line adds the answers in order to those received before. -/
theorem received_exchanges (lines received : List String) :
    (exchanges ⟨lines, false, [], .idle, [], received⟩ lines.length).received
      = received ++ lines.map run := by
  induction lines generalizing received with
  | nil => simp [exchanges]
  | cons line rest ih =>
    rw [List.length_cons, exchanges, steps_exchange]
    show (exchanges ⟨rest, false, [], .idle, [], received ++ [run line]⟩ rest.length).received = _
    rw [ih]
    simp

/-- **Taking turns, a session answers every line with what `run` makes of it.** -/
theorem answers_eq_map_run (lines : List String) : answers lines = lines.map run := by
  unfold answers start
  rw [received_exchanges]
  rfl

end Session

end TypedLambda
