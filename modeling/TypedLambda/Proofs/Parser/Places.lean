import TypedLambda.Parser.Named
import TypedLambda.Proofs.Parser.Unfolding
import TypedLambda.Proofs.Source.Places

/-!
# Runs stay at places of the text

A run of a rule enters other rules, tries them, goes back and tries others. Wherever it comes on the
way, and wherever it finds a dead end, is a place of the text, also if what it did there is given up
later or if the run never ends.

What a run comes to is described from outside, by the replies of the rules that it enters
(`Grammar.Enters`). The description may allow more than a run does, as it does not say which
operators of a level are looked for first, but never less: what is not entered has no influence on
the reply (`Grammar.Enters.kept`).

**Main statement:** `Grammar.runs_stay_at_places`.
-/

namespace TypedLambda

/-! ## Dead ends -/

/-- The dead ends that a step reports. -/
def Step.deadEnds {α : Type} : Step α → List DeadEnd
  | good _ _ => []
  | bad _ problems => problems

namespace Step

variable {α : Type}

@[simp] theorem deadEnds_after (earlier : Bool) (s : Step α) :
    (s.after earlier).deadEnds = s.deadEnds := by
  cases s <;> rfl

@[simp] theorem deadEnds_withoutProgress (s : Step α) :
    s.withoutProgress.deadEnds = s.deadEnds := by
  cases s <;> rfl

end Step

/-- The dead end lies at a place that is not before the cursor. -/
def DeadEnd.From (c : Cursor) (dead : DeadEnd) : Prop :=
  ∃ place : Cursor, c.Onward place ∧ dead = place.deadEnd dead.problem

theorem DeadEnd.from_self (c : Cursor) (problem : Problem) : (c.deadEnd problem).From c :=
  ⟨c, c.onward_self, rfl⟩

theorem DeadEnd.From.of_onward {b c : Cursor} {dead : DeadEnd} (h : dead.From c)
    (hc : b.Onward c) : dead.From b := by
  obtain ⟨place, hplace, hdead⟩ := h
  exact ⟨place, hc.trans hplace, hdead⟩

/-- The run has gone forward, and the dead ends that it reports lie from its start on. -/
structure Reply.Located {α : Type} (c : Cursor) (reply : Reply α) : Prop where
  onward : c.Onward reply.cursor
  deadEnds : ∀ dead ∈ reply.step.deadEnds, dead.From c

namespace Reply

variable {α β : Type} {c mid : Cursor}

theorem located_missed (c : Cursor) (progress : Bool) (problems : List Problem) :
    Located c (⟨.bad progress (problems.map c.deadEnd), c⟩ : Reply α) := by
  refine ⟨c.onward_self, fun dead hdead => ?_⟩
  obtain ⟨problem, -, rfl⟩ := List.mem_map.mp hdead
  exact DeadEnd.from_self c problem

theorem Located.both {stop stop' : Cursor} {problems more : List DeadEnd}
    (h : Located c (⟨.bad false problems, stop⟩ : Reply α))
    (h' : Located c (⟨.bad false more, stop'⟩ : Reply α)) :
    Located c (⟨.bad false (problems ++ more), c⟩ : Reply α) := by
  refine ⟨c.onward_self, fun dead hdead => ?_⟩
  rcases List.mem_append.mp hdead with hdead | hdead
  · exact h.deadEnds dead hdead
  · exact h'.deadEnds dead hdead

/-- A run behind a success is located from the start of the whole. -/
theorem Located.after {progress : Bool} {value : α} {second : Reply β}
    (h : Located c ⟨.good progress value, mid⟩) (h' : second.Located mid) :
    (second.onStep (Step.after progress)).Located c := by
  refine ⟨h.onward.trans h'.onward, fun dead hdead => ?_⟩
  rw [onStep_step, Step.deadEnds_after] at hdead
  exact (h'.deadEnds dead hdead).of_onward h.onward

theorem Located.withoutProgress {reply : Reply α} (h : reply.Located c) :
    (reply.onStep Step.withoutProgress).Located c := by
  refine ⟨h.onward, fun dead hdead => ?_⟩
  rw [onStep_step, Step.deadEnds_withoutProgress] at hdead
  exact h.deadEnds dead hdead

/-- To go forward and report dead ends from the start on is a property of all rules. -/
theorem invariant_located : Invariant fun {α : Type} c (reply : Reply α) => reply.Located c where
  read _ _ _ := ⟨Cursor.onward_advanceBy _ _, nofun⟩
  missed := located_missed
  failed h := ⟨h.onward, h.deadEnds⟩
  both := Located.both
  after := Located.after

end Reply

namespace Grammar

variable {σ : Type → Type} {α β : Type} (g : Grammar σ)

/-- **A rule reports dead ends only at places from the start of its run on.** -/
theorem located_of_denote {depth : Nat} {r : Rule σ α} {c : Cursor} {reply : Reply α}
    (h : g.denote depth r c = some reply) : reply.Located c :=
  Rule.always_denote Reply.invariant_located Reply.Located.withoutProgress
    (g.always_call Reply.invariant_located Reply.Located.withoutProgress depth) r h

/-! ## What a run comes to -/

/-- A run of a rule from the first cursor ends with a value at the second. -/
def Reads (r : Rule σ α) (c : Cursor) (value : α) (d : Cursor) : Prop :=
  ∃ depth, (g.denote depth r).Yields c value d

/-- A run of a rule fails without progress. -/
def Declines (r : Rule σ α) (c : Cursor) : Prop := ∃ depth, (g.denote depth r).Passes c

/-- The places of the operands of a chain that starts at a cursor. -/
inductive OperandAt (term : Rule σ α) (operator : Associativity → Rule σ (α → α → α))
    (c : Cursor) : Cursor → Prop
  | first : OperandAt term operator c c
  | next {a : Associativity} {combine : α → α → α} {value : α} {d e f : Cursor}
    (h : OperandAt term operator c d) (ht : g.Reads term d value e)
    (ho : g.Reads (operator a) e combine f) : OperandAt term operator c f

/-- The places of the operators of a chain, each behind an operand. -/
def OperatorAt (term : Rule σ α) (operator : Associativity → Rule σ (α → α → α))
    (c e : Cursor) : Prop :=
  ∃ d value, g.OperandAt term operator c d ∧ g.Reads term d value e

/-- The run of a rule from a place enters a rule at a place. -/
inductive Enters (top : Rule σ α) (start : Cursor) : {β : Type} → Rule σ β → Cursor → Prop
  | top : Enters top start top start
  | first {β γ : Type} {r : Rule σ β} {f : β → Rule σ γ} {c : Cursor}
    (h : Enters top start (r.bind f) c) : Enters top start r c
  | second {β γ : Type} {r : Rule σ β} {f : β → Rule σ γ} {c d : Cursor} {value : β}
    (h : Enters top start (r.bind f) c) (hr : g.Reads r c value d) : Enters top start (f value) d
  | preferred {β : Type} {r s : Rule σ β} {c : Cursor} (h : Enters top start (r.orElse s) c) :
    Enters top start r c
  /-- The other alternative, with the cursor back where the first was tried. -/
  | alternative {β : Type} {r s : Rule σ β} {c : Cursor} (h : Enters top start (r.orElse s) c)
    (hr : g.Declines r c) : Enters top start s c
  | hidden {β : Type} {r : Rule σ β} {c : Cursor} (h : Enters top start r.backtrackable c) :
    Enters top start r c
  | round {β : Type} {r : Rule σ β} {c : Cursor} (h : Enters top start r.many c) :
    Enters top start r c
  /-- The rounds that are left of a repetition. -/
  | rounds {β : Type} {r : Rule σ β} {c d : Cursor} {value : β} (h : Enters top start r.many c)
    (hr : g.Reads r c value d) : Enters top start r.many d
  | operand {β : Type} {term : Rule σ β} {operator : Associativity → Rule σ (β → β → β)}
    {c d : Cursor} (h : Enters top start (.level term operator) c)
    (hd : g.OperandAt term operator c d) : Enters top start term d
  /-- An operator of a chain, looked for or read behind an operand. -/
  | operator {β : Type} {term : Rule σ β} {operator : Associativity → Rule σ (β → β → β)}
    {c d : Cursor} (a : Associativity) (h : Enters top start (.level term operator) c)
    (hd : g.OperatorAt term operator c d) : Enters top start (operator a) d
  | named {β : Type} {x : σ β} {c : Cursor} (h : Enters top start (.ref x) c) :
    Enters top start (g.rule x) c

/-- The run of a rule from a place comes to a place. -/
inductive Visits (top : Rule σ α) (start : Cursor) : Cursor → Prop
  | entered {β : Type} {r : Rule σ β} {c : Cursor} (h : g.Enters top start r c) :
    Visits top start c
  | passed {β : Type} {r : Rule σ β} {c d : Cursor} {depth : Nat} {reply : Reply β}
    (h : g.Enters top start r c) (hr : g.denote depth r c = some reply) (hd : c.Onward d)
    (hstop : d.Onward reply.cursor) : Visits top start d
  /-- The place is in a word that is read as a name, and given up if it is reserved. -/
  | scanned {rules : NameRules} {c : Cursor} {count : Nat} (h : g.Enters top start (.name rules) c)
    (hcount : count ≤ (c.rest.tail.takeWhile rules.inner).length + 1) :
    Visits top start (c.advanceBy count)

/-- The run of a rule from a place finds a dead end, which it may give up again. -/
def Finds (top : Rule σ α) (start : Cursor) (dead : DeadEnd) : Prop :=
  ∃ (β : Type) (r : Rule σ β) (c : Cursor) (depth : Nat) (reply : Reply β),
    g.Enters top start r c ∧ g.denote depth r c = some reply ∧ dead ∈ reply.step.deadEnds

variable {g} {top : Rule σ α} {r : Rule σ β} {start c d : Cursor}

theorem Reads.onward {value : β} (h : g.Reads r c value d) : c.Onward d := by
  obtain ⟨depth, progress, h⟩ := h
  exact (g.located_of_denote h).onward

theorem OperandAt.onward {operator : Associativity → Rule σ (β → β → β)}
    (h : g.OperandAt r operator c d) : c.Onward d := by
  induction h with
  | first => exact c.onward_self
  | next _ ht ho ih => exact ih.trans (ht.onward.trans ho.onward)

theorem OperatorAt.onward {operator : Associativity → Rule σ (β → β → β)}
    (h : g.OperatorAt r operator c d) : c.Onward d := by
  obtain ⟨_, _, hoperand, hr⟩ := h
  exact hoperand.onward.trans hr.onward

/-- **No rule is entered before the start of the run**, whatever was given up in between. -/
theorem Enters.onward (h : g.Enters top start r c) : start.Onward c := by
  induction h with
  | top => exact start.onward_self
  | first _ ih | preferred _ ih | alternative _ _ ih | hidden _ ih | round _ ih | named _ ih =>
    exact ih
  | second _ hr ih | rounds _ hr ih => exact ih.trans hr.onward
  | operand _ hd ih => exact ih.trans hd.onward
  | operator _ _ hd ih => exact ih.trans hd.onward

/--
**A run uses names only where it enters them**: what they mean elsewhere does not change its reply.
-/
theorem Enters.kept {depth : Nat} {call : {β : Type} → σ β → Parser β}
    (h : ∀ {β : Type} (x : σ β),
      Parser.Kept (g.Enters top start (.ref x)) (g.call depth x) (call x)) (r : Rule σ β) :
    Parser.Kept (g.Enters top start r) (g.denote depth r) (r.denote call) := by
  induction r with
  | bind r f ihr ihf =>
    have hfirst : Parser.Kept (g.Enters top start (r.bind f)) (g.denote depth r) (r.denote call) :=
      fun c hc => ihr c hc.first
    exact hfirst.bind_of_yields (fun hc hr => hc.second ⟨depth, hr⟩) ihf
  | orElse r s ihr ihs =>
    have hpreferred : Parser.Kept (g.Enters top start (r.orElse s)) (g.denote depth r)
        (r.denote call) := fun c hc => ihr c hc.preferred
    exact hpreferred.orElse fun c hc => ihs c (hc.1.alternative ⟨depth, hc.2⟩)
  | backtrackable r ih =>
    have hhidden : Parser.Kept (g.Enters top start r.backtrackable) (g.denote depth r)
        (r.denote call) := fun c hc => ih c hc.hidden
    exact hhidden.backtrackable
  | many r ih =>
    have hround : Parser.Kept (g.Enters top start r.many) (g.denote depth r) (r.denote call) :=
      fun c hc => ih c hc.round
    exact hround.many fun hc hr => hc.rounds ⟨depth, hr⟩
  | level term operator iht iho =>
    -- the kinds of places depend on where the chain starts
    intro c hc
    have hterm : Parser.Kept (g.OperandAt term operator c) (g.denote depth term)
        (term.denote call) := fun d hd => iht d (hc.operand hd)
    have hoperator : ∀ a, Parser.Kept (g.OperatorAt term operator c) (g.denote depth (operator a))
        ((operator a).denote call) := fun a d hd => iho a d (hc.operator a hd)
    refine Level.kept_parse hoperator hterm ?_ ?_ c .first
    · exact fun hd ht => ⟨_, _, hd, depth, ht⟩
    · rintro a e f combine ⟨d, value, hd, ht⟩ ho
      exact hd.next ht ⟨depth, ho⟩
  | ref x => exact h x
  | _ => exact Parser.kept_self _ _

/-- A run comes to no place before its start. -/
theorem Visits.onward (h : g.Visits top start c) : start.Onward c := by
  cases h with
  | entered h => exact h.onward
  | passed h _ hd _ => exact h.onward.trans hd
  | scanned h _ => exact h.onward.trans (Cursor.onward_advanceBy _ _)

/-- A run finds no dead end before its start. -/
theorem Finds.from {dead : DeadEnd} (h : g.Finds top start dead) : dead.From start := by
  obtain ⟨β, r, c, depth, reply, hr, hreply, hdead⟩ := h
  exact ((g.located_of_denote hreply).deadEnds dead hdead).of_onward hr.onward

/--
**Runs stay at places of the text.** A walk through a text, with any number of ways back, is always
at a place of the text, and so are the places it can go back to. From there the run of any rule
comes only to places of the text, and every dead end that it finds has the row and column of one.
No place is missing from this: a run uses the rules of names only where it is said to enter them.
-/
theorem runs_stay_at_places (g : Grammar σ) (source : String)
    (hsource : source.length < UInt32.size - 1) (moves : List Walk.Move) :
    (∀ c ∈ ((Walk.start source).run moves).cursors, c.StandsIn source) ∧
    ∀ (α : Type) (top : Rule σ α) (start : Cursor),
      start = ((Walk.start source).run moves).cursor →
      (∀ c, g.Visits top start c → c.StandsIn source) ∧
      (∀ dead, g.Finds top start dead →
        ∃ place : Cursor, place.StandsIn source ∧ dead = place.deadEnd dead.problem) ∧
      ∀ (depth : Nat) (call : {β : Type} → σ β → Parser β),
        (∀ (β : Type) (x : σ β),
          Parser.Kept (g.Enters top start (.ref x)) (g.call depth x) (call x)) →
        ∀ reply, g.denote depth top start = some reply → top.denote call start = some reply := by
  have hwalk := Walk.onward_run source moves
  refine ⟨fun c hc => Cursor.standsIn_of_onward hsource (hwalk c hc), ?_⟩
  rintro α top start hstart
  have honward : (Cursor.start source).Onward start := by
    rw [hstart]
    exact hwalk _ List.mem_cons_self
  refine ⟨?_, ?_, ?_⟩
  · intro c hc
    exact Cursor.standsIn_of_onward hsource (honward.trans hc.onward)
  · intro dead hdead
    obtain ⟨place, hplace, hdead⟩ := hdead.from
    exact ⟨place, Cursor.standsIn_of_onward hsource (honward.trans hplace), hdead⟩
  · intro depth call hcall
    exact Enters.kept (fun {β} x => hcall β x) top start .top

/--
A walk over a character of two bytes to a mark, on, back to it, and into the second line; from there
a run that reads a closing parenthesis and misses an opening one behind it.
-/
theorem runs_stay_at_places_second_line :
    "é\n)".length < UInt32.size - 1 ∧
      ((Cursor.start "é\n)").advanceBy 1).StandsIn "é\n)" ∧
      ((Cursor.start "é\n)").advanceBy 3).StandsIn "é\n)" ∧
      ∃ place : Cursor, place.StandsIn "é\n)" ∧
        ⟨2, 2, .expectingSymbol "("⟩ = place.deadEnd (.expectingSymbol "(") := by
  have hsource : "é\n)".length < UInt32.size - 1 := by decide
  obtain ⟨hwalk, hruns⟩ := runs_stay_at_places (Named.grammar (β := Unit) []) "é\n)" hsource
    [.advance, .mark, .advanceBy 5, .restore 1, .advance]
  obtain ⟨hvisits, hfinds, -⟩ := hruns Unit ((Rule.symbol ")").bind fun _ => .symbol "(")
    ((Cursor.start "é\n)").advanceBy 2) (by decide)
  have hread : (Named.grammar (β := Unit) []).Reads (.symbol ")")
      ((Cursor.start "é\n)").advanceBy 2) () ((Cursor.start "é\n)").advanceBy 3) :=
    ⟨0, true, by decide⟩
  refine ⟨hsource, hwalk _ (by decide), hvisits _ (.entered (.second .top hread)), ?_⟩
  exact hfinds ⟨2, 2, .expectingSymbol "("⟩ ⟨Unit, _, _, 0, _, .second .top hread, rfl, by decide⟩

end Grammar

end TypedLambda
