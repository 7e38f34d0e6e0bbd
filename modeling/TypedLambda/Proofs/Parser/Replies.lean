import TypedLambda.Proofs.Parser.Outcome

/-!
# How a reply comes about

A reply of a compound parser comes from replies of its parts. For each way to compound parsers there
is one lemma that goes back from the reply, and the proofs about all runs of all rules start from
these lemmas: that a run moves forward, that it can be run to a greater depth, that two runs take
the same course.

A sequence has `Parser.bind_cases`. Repetitions and chains call themselves on a shorter rest, so
what is said about them is shown by induction on the number of characters left.
-/

namespace TypedLambda

/-- Induction on the number of characters left. -/
theorem Cursor.shorterInduction {motive : Cursor → Prop}
    (step : ∀ c, (∀ d : Cursor, d.rest.length < c.rest.length → motive d) → motive c) (c : Cursor) :
    motive c :=
  (measure fun c : Cursor => c.rest.length).wf.induction c step

namespace Parser

variable {α β : Type} {p q : Parser α} {c : Cursor}

theorem map_cases {f : α → β} {reply : Reply β} (h : p.map f c = some reply) :
    ∃ r, p c = some r ∧ r.onStep (Step.map f) = reply :=
  Option.map_eq_some_iff.mp h

theorem backtrackable_cases {reply : Reply α} (h : p.backtrackable c = some reply) :
    ∃ r, p c = some r ∧ r.onStep Step.withoutProgress = reply :=
  Option.map_eq_some_iff.mp h

/-- A choice replies as its first part unless that passes, and else as its second part does. -/
theorem orElse_cases {reply : Reply α} (h : p.orElse q c = some reply) :
    (p c = some reply ∧ ∀ problems stop, reply ≠ ⟨.bad false problems, stop⟩) ∨
    ∃ problems stop, p c = some ⟨.bad false problems, stop⟩ ∧
      ((∃ more stop', q c = some ⟨.bad false more, stop'⟩ ∧
          reply = ⟨.bad false (problems ++ more), c⟩) ∨
        (q c = some reply ∧ ∀ more stop', reply ≠ ⟨.bad false more, stop'⟩)) := by
  unfold orElse at h
  split at h
  · next problems stop hp =>
    refine Or.inr ⟨problems, stop, hp, ?_⟩
    split at h
    · next more stop' hq => exact Or.inl ⟨more, stop', hq, (Option.some.inj h).symm⟩
    · next hq =>
      refine Or.inr ⟨h, ?_⟩
      rintro more stop' rfl
      exact hq more stop' h
  · next hp =>
    refine Or.inl ⟨h, ?_⟩
    rintro problems stop rfl
    exact hp problems stop h

/-- A repetition ends where its body passes, fails where it is refused, and else goes on. -/
theorem many_cases {reply : Reply (List α)} (h : p.many c = some reply) :
    (∃ problems stop, p c = some ⟨.bad false problems, stop⟩ ∧ reply = ⟨.good false [], c⟩) ∨
    (∃ problems stop, p c = some ⟨.bad true problems, stop⟩ ∧
      reply = ⟨.bad true problems, stop⟩) ∨
    ∃ progress value next others, p c = some ⟨.good progress value, next⟩ ∧
      next.rest.length < c.rest.length ∧ p.many next = some others ∧
      reply = others.onStep fun step => (step.map (value :: ·)).after progress := by
  rw [many] at h
  split at h
  · cases h
  · next progress value next hp =>
    split at h
    · next hlt =>
      obtain ⟨others, hm, heq⟩ := Option.map_eq_some_iff.mp h
      exact Or.inr (Or.inr ⟨progress, value, next, others, hp, hlt, hm, heq.symm⟩)
    · cases h
  · next problems stop hp =>
    exact Or.inr (Or.inl ⟨problems, stop, hp, (Option.some.inj h).symm⟩)
  · next problems stop hp => exact Or.inl ⟨problems, stop, hp, (Option.some.inj h).symm⟩

/-! ## Progress -/

/-- Every failure reports progress. -/
def Commits (p : Parser α) : Prop := ∀ c problems stop, p c ≠ some ⟨.bad false problems, stop⟩

theorem Progressive.progress_eq (hp : p.Progressive) {stop : Cursor} {progress : Bool} {value : α}
    (h : p c = some ⟨.good progress value, stop⟩) : progress = true := by
  cases progress with
  | false => exact absurd h (hp c value stop)
  | true => rfl

theorem Commits.progress_eq (hp : p.Commits) {stop : Cursor} {progress : Bool}
    {problems : List DeadEnd} (h : p c = some ⟨.bad progress problems, stop⟩) :
    progress = true := by
  cases progress with
  | false => exact absurd h (hp c problems stop)
  | true => rfl

theorem Progressive.orElse (hp : p.Progressive) (hq : q.Progressive) :
    (p.orElse q).Progressive := by
  intro c value stop h
  rcases orElse_cases h with ⟨hpc, -⟩ | ⟨_, _, -, ⟨_, _, -, heq⟩ | ⟨hqc, -⟩⟩
  · exact hp c value stop hpc
  · cases heq
  · exact hq c value stop hqc

theorem commits_succeed (value : α) : (succeed value).Commits := by
  intro c problems stop h
  cases h

theorem commits_chompWhile (inClass : Char → Bool) : (chompWhile inClass).Commits := by
  intro c problems stop h
  cases h

theorem Commits.bind {f : α → Parser β} (hp : p.Commits) (hf : ∀ value, (f value).Commits) :
    (p.bind f).Commits := by
  intro c problems stop h
  rcases passes_bind_cases ⟨problems, stop, h⟩ with ⟨_, _, hpass⟩ | ⟨value, mid, -, _, _, hpass⟩
  · exact hp c _ _ hpass
  · exact hf value mid _ _ hpass

/-- A repetition that fails has read a row and is refused by its body behind it. -/
theorem many_refused {progress : Bool} {problems : List DeadEnd} {stop : Cursor}
    (h : p.many c = some ⟨.bad progress problems, stop⟩) :
    progress = true ∧ ∃ values mid, Row p c values mid ∧
      p mid = some ⟨.bad true problems, stop⟩ := by
  induction c using Cursor.shorterInduction generalizing progress with
  | step c ih =>
    rcases many_cases h with
      ⟨_, _, -, heq⟩ | ⟨_, _, hp, heq⟩ | ⟨progress', value, next, ⟨step, _⟩, hp, hlt, hothers, heq⟩
    · cases heq
    · cases heq
      exact ⟨rfl, [], c, .nil, hp⟩
    · cases step with
      | good progress'' values => cases heq
      | bad progress'' more =>
        cases heq
        obtain ⟨rfl, values, mid, hrow, hmid⟩ := ih next hlt hothers
        exact ⟨Bool.or_true progress', value :: values, mid, .cons ⟨_, hp⟩ hlt hrow, hmid⟩

/-- A repetition that fails has made progress, since otherwise it would have ended. -/
theorem commits_many (p : Parser α) : Commits p.many := by
  intro c problems stop h
  cases (many_refused h).1

end Parser

/-! ## Levels -/

namespace Level

variable {α : Type} {l : Level α} {c : Cursor} {lhs value : α} {reply : Reply α}

theorem sees_cases {a : Associativity} {found : Bool} (h : l.sees a c = some found) :
    ∃ r, l.operator a c = some r ∧ r.step.isGood = found :=
  Option.map_eq_some_iff.mp h

theorem not_passes_of_sees {a : Associativity} (h : l.sees a c = some true) :
    ¬(l.operator a).Passes c := by
  rintro ⟨problems, stop, hpass⟩
  obtain ⟨r, hr, hgood⟩ := sees_cases h
  rw [hpass] at hr
  cases hr
  cases hgood

/-- The first associativity is seen, or not and the others are looked for. -/
theorem firstSeen_cases {a : Associativity} {others : List Associativity}
    {found : Option Associativity} (h : l.firstSeen (a :: others) c = some found) :
    (l.sees a c = some true ∧ found = some a) ∨
      (l.sees a c = some false ∧ l.firstSeen others c = some found) := by
  rw [firstSeen] at h
  split at h
  · cases h
  · next hs => exact Or.inl ⟨hs, (Option.some.inj h).symm⟩
  · next hs => exact Or.inr ⟨hs, h⟩

/-- The operator that is found first is there. -/
theorem sees_of_firstSeen {as : List Associativity} {a : Associativity}
    (h : l.firstSeen as c = some (some a)) : l.sees a c = some true := by
  induction as with
  | nil => cases h
  | cons a' others ih =>
    rcases firstSeen_cases h with ⟨hs, heq⟩ | ⟨-, h⟩
    · cases heq
      exact hs
    · exact ih h

/-- A chain ends with its value, or is refused where it stands. -/
theorem close_cases {refused : List Associativity} (h : l.close refused value c = some reply) :
    (l.firstSeen refused c = some none ∧ reply = ⟨.good false value, c⟩) ∨
      ∃ a, l.firstSeen refused c = some (some a) ∧
        reply = ⟨.bad true [c.deadEnd a.ambiguous], c⟩ := by
  unfold close at h
  split at h
  · cases h
  · next hf => exact Or.inl ⟨hf, (Option.some.inj h).symm⟩
  · next a hf => exact Or.inr ⟨a, hf, (Option.some.inj h).symm⟩

/-- The rest of a chain to the left behind one of its operators. -/
def leftTail (l : Level α) (start : Cursor) (combine : α → α → α) (lhs : α) : Parser α :=
  l.term.bind fun rhs next =>
    if next.rest.length < start.rest.length then l.chainLeft (combine lhs rhs) next else none

/-- A chain to the left ends, is refused at an operator, or goes on behind one. -/
theorem chainLeft_cases (h : l.chainLeft lhs c = some reply) :
    (∃ problems stop, l.operator .left c = some ⟨.bad false problems, stop⟩ ∧
      l.close [.right, .non] lhs c = some reply) ∨
    (∃ problems stop, l.operator .left c = some ⟨.bad true problems, stop⟩ ∧
      reply = ⟨.bad true problems, stop⟩) ∨
    ∃ progress combine behind r, l.operator .left c = some ⟨.good progress combine, behind⟩ ∧
      l.leftTail c combine lhs behind = some r ∧ reply = r.onStep (Step.after progress) := by
  rw [chainLeft] at h
  split at h
  · cases h
  · next progress combine behind ho =>
    obtain ⟨r, hr, heq⟩ := Option.map_eq_some_iff.mp h
    exact Or.inr (Or.inr ⟨progress, combine, behind, r, ho, hr, heq.symm⟩)
  · next problems stop ho =>
    exact Or.inr (Or.inl ⟨problems, stop, ho, (Option.some.inj h).symm⟩)
  · next problems stop ho => exact Or.inl ⟨problems, stop, ho, h⟩

theorem leftTail_next_cases {start : Cursor} {combine : α → α → α} {rhs : α}
    (h : (if c.rest.length < start.rest.length then l.chainLeft (combine lhs rhs) c else none)
      = some reply) :
    c.rest.length < start.rest.length ∧ l.chainLeft (combine lhs rhs) c = some reply := by
  split at h
  · next hlt => exact ⟨hlt, h⟩
  · cases h

/-- A chain to the right ends behind an operand, or goes on where less is left. -/
theorem rightTail_cases {start : Cursor} {operand : α}
    (h : l.rightTail start operand c = some reply) :
    (l.sees .right c = some false ∧ l.close [.left, .non] operand c = some reply) ∨
      (l.sees .right c = some true ∧ c.rest.length < start.rest.length ∧
        l.chainRight operand c = some reply) := by
  unfold rightTail at h
  split at h
  · cases h
  · next hs =>
    split at h
    · next hlt => exact Or.inr ⟨hs, hlt, h⟩
    · cases h
  · next hs => exact Or.inl ⟨hs, h⟩

/-- What a level reads behind its first operand. -/
def follow (l : Level α) (first : α) : Parser α := fun c =>
  match l.firstSeen [.right, .left, .non] c with
  | none => none
  | some none => Parser.succeed first c
  | some (some .right) => l.chainRight first c
  | some (some .left) => l.chainLeft first c
  | some (some .non) => l.single first c

theorem parse_eq (l : Level α) : l.parse = l.term.bind l.follow := rfl

/-- What is seen behind the first operand tells which chain is read. -/
theorem follow_cases {first : α} (h : l.follow first c = some reply) :
    ∃ found, l.firstSeen [.right, .left, .non] c = some found ∧
      ((found = none ∧ reply = ⟨.good false first, c⟩) ∨
        (found = some .right ∧ l.chainRight first c = some reply) ∨
        (found = some .left ∧ l.chainLeft first c = some reply) ∨
        (found = some .non ∧ l.single first c = some reply)) := by
  unfold follow at h
  split at h
  · cases h
  · next hf => exact ⟨_, hf, Or.inl ⟨rfl, (Option.some.inj h).symm⟩⟩
  · next hf => exact ⟨_, hf, Or.inr (Or.inl ⟨rfl, h⟩)⟩
  · next hf => exact ⟨_, hf, Or.inr (Or.inr (Or.inl ⟨rfl, h⟩))⟩
  · next hf => exact ⟨_, hf, Or.inr (Or.inr (Or.inr ⟨rfl, h⟩))⟩

end Level

end TypedLambda
