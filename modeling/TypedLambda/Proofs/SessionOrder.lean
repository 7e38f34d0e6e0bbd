import TypedLambda.Session

/-!
# Sessions answer in order

Whatever the order in which the two sides of a session move, one message at most is under way, and
the answers that the client gets are those to its lines, in the order of the lines. The client waits
after each line, and this leaves the two sides no choice: every run of a session is the beginning of
a row of exchanges.

The states that a session can come to are listed in `Session.Course`, each with the moves that lead
to it. A move leads from one of them to the next (`Course.step`), so a run never leaves them
(`Course.steps`).
-/

namespace TypedLambda

/-- What one side of a session passes to the other. -/
inductive Message where
  | request (line : String)
  | answer (text : String)
deriving DecidableEq

/-- The message that the worker holds, if it holds one. -/
def Worker.holds : Worker → List Message
  | idle => []
  | interpreting line => [.request line]
  | replying answer => [.answer answer]

namespace Session

/-- The messages that are queued or that the worker holds. -/
def underWay (s : Session) : List Message :=
  s.requests.map .request ++ s.worker.holds ++ s.responses.map .answer

/-- The moves of as many exchanges as a number says. -/
def turns (count : Nat) : List Move := (List.replicate count exchange).flatten

theorem turns_succ (count : Nat) : turns (count + 1) = turns count ++ exchange := by
  unfold turns
  rw [List.replicate_succ', List.flatten_append, List.flatten_singleton]

theorem turns_mono {few many : Nat} (h : few ≤ many) : turns few <+: turns many := by
  obtain ⟨more, rfl⟩ := Nat.exists_eq_add_of_le h
  unfold turns
  rw [← List.replicate_append_replicate, List.flatten_append]
  exact List.prefix_append _ _

/-- Each move is made once a turn. -/
theorem count_turns (move : Move) (count : Nat) : (turns count).count move = count := by
  have hexchange : exchange.count move = 1 := by cases move <;> rfl
  induction count with
  | zero => rfl
  | succ count ih => rw [turns_succ, List.count_append, ih, hexchange]

/-! ## The states of a session -/

/-- A state of a session with the given lines, and the moves that lead to it. -/
inductive Course (lines : List String) : List Move → Session → Prop
  | resting {answered unsent : List String} (h : lines = answered ++ unsent) :
    Course lines (turns answered.length) ⟨unsent, false, [], .idle, [], answered.map run⟩
  | sent {answered unsent : List String} {line : String} (h : lines = answered ++ line :: unsent) :
    Course lines (turns answered.length ++ exchange.take 1)
      ⟨unsent, true, [line], .idle, [], answered.map run⟩
  | taken {answered unsent : List String} {line : String} (h : lines = answered ++ line :: unsent) :
    Course lines (turns answered.length ++ exchange.take 2)
      ⟨unsent, true, [], .interpreting line, [], answered.map run⟩
  | interpreted {answered unsent : List String} {line : String}
    (h : lines = answered ++ line :: unsent) :
    Course lines (turns answered.length ++ exchange.take 3)
      ⟨unsent, true, [], .replying (run line), [], answered.map run⟩
  | replied {answered unsent : List String} {line : String}
    (h : lines = answered ++ line :: unsent) :
    Course lines (turns answered.length ++ exchange.take 4)
      ⟨unsent, true, [], .idle, [run line], answered.map run⟩

namespace Course

variable {lines : List String} {made : List Move} {s t : Session}

theorem start (lines : List String) : Course lines [] (start lines) :=
  .resting (List.nil_append lines).symm

/-- **A move leads from a state of the session to its next state.** -/
theorem step (h : Course lines made s) {move : Move} (hm : s.step move = some t) :
    Course lines (made ++ [move]) t := by
  cases h with
  | @resting answered unsent h =>
    cases unsent with
    | nil => cases move <;> cases hm
    | cons line unsent =>
      cases move <;> cases hm
      exact .sent h
  | sent h =>
    cases move <;> cases hm
    rw [List.append_assoc]
    exact .taken h
  | taken h =>
    cases move <;> cases hm
    rw [List.append_assoc]
    exact .interpreted h
  | interpreted h =>
    cases move <;> cases hm
    rw [List.append_assoc]
    exact .replied h
  | @replied answered unsent line h =>
    cases move <;> cases hm
    have hlines : lines = (answered ++ [line]) ++ unsent := by
      rw [h, List.append_assoc]
      rfl
    have hrest := Course.resting hlines
    rw [List.length_append, List.length_singleton, turns_succ, List.map_append] at hrest
    rw [List.append_assoc]
    exact hrest

/-- **A run never leaves the states of the session.** -/
theorem steps (h : Course lines made s) {moves : List Move} (hm : s.steps moves = some t) :
    Course lines (made ++ moves) t := by
  induction moves generalizing made s with
  | nil =>
    cases hm
    rw [List.append_nil]
    exact h
  | cons move moves ih =>
    rw [Session.steps] at hm
    split at hm
    · next next hnext =>
      have hrest := ih (h.step hnext) hm
      rwa [List.append_assoc] at hrest
    · cases hm

/-- A session goes on until all lines are answered. -/
theorem goes_on (h : Course lines made s) :
    (∃ move next, s.step move = some next) ∨ s.received = lines.map run := by
  cases h with
  | @resting answered unsent h =>
    cases unsent with
    | nil => exact Or.inr (by rw [h, List.append_nil])
    | cons line unsent => exact Or.inl ⟨.send, _, rfl⟩
  | sent h => exact Or.inl ⟨.take, _, rfl⟩
  | taken h => exact Or.inl ⟨.interpret, _, rfl⟩
  | interpreted h => exact Or.inl ⟨.reply, _, rfl⟩
  | replied h => exact Or.inl ⟨.receive, _, rfl⟩

/--
The lines are cut into those answered and the others. Between two exchanges nothing is under way;
within an exchange one message is, and it belongs to the first of the other lines.
-/
theorem accounts (h : Course lines made s) :
    ∃ answered unanswered, lines = answered ++ unanswered ∧ s.received = answered.map run ∧
      ((made = turns answered.length ∧ s.unsent = unanswered ∧ s.underWay = []) ∨
        ∃ line part, made = turns answered.length ++ exchange.take (part + 1) ∧ part < 4 ∧
          unanswered = line :: s.unsent ∧
          (s.underWay = [.request line] ∨ s.underWay = [.answer (run line)])) := by
  cases h with
  | resting h => exact ⟨_, _, h, rfl, Or.inl ⟨rfl, rfl, rfl⟩⟩
  | sent h => exact ⟨_, _, h, rfl, Or.inr ⟨_, 0, rfl, by decide, rfl, Or.inl rfl⟩⟩
  | taken h => exact ⟨_, _, h, rfl, Or.inr ⟨_, 1, rfl, by decide, rfl, Or.inl rfl⟩⟩
  | interpreted h => exact ⟨_, _, h, rfl, Or.inr ⟨_, 2, rfl, by decide, rfl, Or.inr rfl⟩⟩
  | replied h => exact ⟨_, _, h, rfl, Or.inr ⟨_, 3, rfl, by decide, rfl, Or.inr rfl⟩⟩

/-- Within an exchange the client has sent its line and not received its answer. -/
theorem count_exchange_take : ∀ part < 4, (exchange.take (part + 1)).count .send = 1 ∧
    (exchange.take (part + 1)).count .receive = 0 := by
  decide

/-- There are as many answers as moves that receive one. -/
theorem count_receive (h : Course lines made s) : made.count .receive = s.received.length := by
  obtain ⟨answered, _, -, hreceived, ⟨rfl, -⟩ | ⟨_, part, rfl, hpart, -⟩⟩ := h.accounts
  · rw [count_turns, hreceived, List.length_map]
  · rw [List.count_append, count_turns, (count_exchange_take part hpart).2, hreceived,
      List.length_map, Nat.add_zero]

theorem count_send (h : Course lines made s) :
    made.count .send = s.received.length + s.underWay.length := by
  obtain ⟨answered, _, -, hreceived, ⟨rfl, -, hway⟩ | ⟨_, part, rfl, hpart, -, hway⟩⟩ := h.accounts
  · rw [count_turns, hreceived, hway, List.length_map, List.length_nil, Nat.add_zero]
  · rw [List.count_append, count_turns, (count_exchange_take part hpart).1, hreceived,
      List.length_map]
    rcases hway with hway | hway <;> rw [hway, List.length_singleton]

/-- The lines not sent are those behind the ones answered and the one under way. -/
theorem unsent_eq (h : Course lines made s) : s.unsent = lines.drop (made.count .send) := by
  rw [h.count_send]
  obtain ⟨answered, _, rfl, hreceived, ⟨-, rfl, hway⟩ | ⟨_, _, -, -, rfl, hway⟩⟩ := h.accounts
  · simp [hreceived, hway]
  · rcases hway with hway | hway <;> simp [hreceived, hway]

/-- What is under way belongs to the first line without an answer. -/
theorem belongs (h : Course lines made s) {message : Message} (hm : message ∈ s.underWay) :
    ∃ line, lines[s.received.length]? = some line ∧
      (message = .request line ∨ message = .answer (run line)) := by
  obtain ⟨answered, _, rfl, hreceived, ⟨-, -, hway⟩ | ⟨line, _, -, -, rfl, hway⟩⟩ := h.accounts
  · rw [hway] at hm
    cases hm
  · refine ⟨line, by simp [hreceived], ?_⟩
    rcases hway with hway | hway
    · exact Or.inl (List.mem_singleton.mp (hway ▸ hm))
    · exact Or.inr (List.mem_singleton.mp (hway ▸ hm))

/-- At most one line is under way. -/
theorem underWay_le_one (h : Course lines made s) : s.underWay.length ≤ 1 := by
  obtain ⟨_, _, -, -, ⟨-, -, hway⟩ | ⟨_, _, -, -, -, hway | hway⟩⟩ := h.accounts <;> simp [hway]

/-- The answers so far are the first ones, in the order of the lines. -/
theorem received_begins (h : Course lines made s) : s.received <+: lines.map run := by
  obtain ⟨answered, unanswered, rfl, hreceived, -⟩ := h.accounts
  rw [hreceived, List.map_append]
  exact List.prefix_append _ _

/-- A run is the beginning of a row of exchanges, one for each line. -/
theorem begins_turns (h : Course lines made s) : made <+: turns lines.length := by
  obtain ⟨answered, _, rfl, -, ⟨rfl, -⟩ | ⟨_, part, rfl, -, rfl, -⟩⟩ := h.accounts
  · exact turns_mono (by simp)
  · have hturn : turns answered.length ++ exchange.take (part + 1) <+:
        turns (answered.length + 1) := by
      rw [turns_succ, List.prefix_append_right_inj]
      exact List.take_prefix _ _
    exact hturn.trans (turns_mono (by simp))

end Course

/--
**A session answers in order.** After any moves of the two sides, in any order that the state
allows: one message at most is queued or held by the worker, and it is the first line without an
answer or the answer to that line; the answers that the client has got are those to the first lines,
one for each time it has received; no line is sent twice or left out; the moves are the beginning of
a row of exchanges; and some move is possible until all lines are answered.
-/
theorem steps_answer_in_order {lines : List String} {moves : List Move} {s : Session}
    (h : (start lines).steps moves = some s) :
    s.underWay.length ≤ 1 ∧
    (∀ message ∈ s.underWay, ∃ line, lines[s.received.length]? = some line ∧
      (message = .request line ∨ message = .answer (run line))) ∧
    s.received <+: lines.map run ∧
    moves.count .receive = s.received.length ∧
    moves.count .send = s.received.length + s.underWay.length ∧
    s.unsent = lines.drop (moves.count .send) ∧
    moves <+: turns lines.length ∧
    ((∃ move next, s.step move = some next) ∨ s.received = lines.map run) := by
  have hcourse : Course lines moves s := (Course.start lines).steps h
  exact ⟨hcourse.underWay_le_one, fun _ => hcourse.belongs, hcourse.received_begins,
    hcourse.count_receive, hcourse.count_send, hcourse.unsent_eq, hcourse.begins_turns,
    hcourse.goes_on⟩

/-- The second of three lines is being interpreted. -/
theorem steps_answer_in_order_second :
    (start ["1 + 2", "y", "True"]).steps (exchange ++ [.send, .take]) =
        some ⟨["True"], true, [], .interpreting "y", [], [run "1 + 2"]⟩ ∧
      [run "1 + 2"] <+: [run "1 + 2", run "y", run "True"] ∧
      exchange ++ [.send, .take] <+: turns 3 := by
  have hsteps : (start ["1 + 2", "y", "True"]).steps (exchange ++ [.send, .take]) =
      some ⟨["True"], true, [], .interpreting "y", [], [run "1 + 2"]⟩ := rfl
  obtain ⟨-, -, hreceived, -, -, -, hmoves, -⟩ := steps_answer_in_order hsteps
  exact ⟨hsteps, hreceived, hmoves⟩

end Session

end TypedLambda
