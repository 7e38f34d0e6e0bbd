import TypedLambda.Proofs.Parser.Agreement
import TypedLambda.Proofs.Parser.Tokens

/-!
# What parsers report

A failed run reports dead ends. A failure without progress reports what could have started here, so
its problems are always the same ones, and they lie at the start; the alternatives of a choice that
all fail so put theirs together. A failure with progress ends the choice, and its dead ends are
passed on as they are.

**Main statement:** `Rule.reports_table`. The ways in which a parser that is built with a table can
fail are those of its operands and, if an operator without associativity is used twice, one more.
-/

namespace TypedLambda

/-- The dead ends are those of one of the lists of problems, all at one place. -/
def Reported (reports : List (List Problem)) (deadEnds : List DeadEnd) : Prop :=
  ∃ report ∈ reports, ∃ row column, deadEnds = report.map (DeadEnd.mk row column)

namespace Parser

variable {α β : Type} {p q : Parser α} {reports : List (List Problem)}
  {missing missing' : List Problem}

/-- Every failure reports one of the lists. -/
def Fails (reports : List (List Problem)) (p : Parser α) : Prop :=
  ∀ ⦃c : Cursor⦄ ⦃progress : Bool⦄ ⦃deadEnds : List DeadEnd⦄ ⦃stop : Cursor⦄,
    p c = some ⟨.bad progress deadEnds, stop⟩ → Reported reports deadEnds

/-- Every failure without progress reports what is missing where the run started. -/
def Expects (missing : List Problem) (p : Parser α) : Prop :=
  ∀ ⦃c : Cursor⦄ ⦃deadEnds : List DeadEnd⦄ ⦃stop : Cursor⦄,
    p c = some ⟨.bad false deadEnds, stop⟩ → deadEnds = missing.map c.deadEnd

/-- Every failure with progress reports one of the lists. -/
def Refuses (reports : List (List Problem)) (p : Parser α) : Prop :=
  ∀ ⦃c : Cursor⦄ ⦃deadEnds : List DeadEnd⦄ ⦃stop : Cursor⦄,
    p c = some ⟨.bad true deadEnds, stop⟩ → Reported reports deadEnds

/-- What a parser reports without progress and with progress. -/
structure Reports (missing : List Problem) (reports : List (List Problem)) (p : Parser α) :
    Prop where
  expects : p.Expects missing
  refuses : p.Refuses reports

/-- If what is missing at the start is listed too, every failure is. -/
theorem Reports.fails (h : p.Reports missing reports) (hmem : missing ∈ reports) :
    p.Fails reports := by
  intro c progress deadEnds stop hbad
  cases progress with
  | false => exact ⟨missing, hmem, _, _, h.expects hbad⟩
  | true => exact h.refuses hbad

theorem fails_never : (never : Parser α).Fails reports := nofun

theorem fails_succeed (value : α) : (succeed value).Fails reports := nofun

theorem fails_chompWhile (inClass : Char → Bool) : (chompWhile inClass).Fails reports := nofun

/-! ## Sequence -/

/-- A sequence reports what its first part does, or else what its second part does. -/
theorem reported_bind {f : α → Parser β} {c stop : Cursor} {progress : Bool}
    {deadEnds : List DeadEnd} (h : p.bind f c = some ⟨.bad progress deadEnds, stop⟩)
    (hp : p c = some ⟨.bad progress deadEnds, stop⟩ → Reported reports deadEnds)
    (hf : ∀ value, (f value).Fails reports) : Reported reports deadEnds := by
  rcases bind_cases h with ⟨_, _, _, hbad, heq⟩ | ⟨_, value, _, ⟨step, _⟩, -, hsecond, heq⟩
  · cases heq
    exact hp hbad
  · cases step with
    | good => cases heq
    | bad progress' problems =>
      cases heq
      exact hf value hsecond

theorem Fails.bind (hp : p.Fails reports) {f : α → Parser β}
    (hf : ∀ value, (f value).Fails reports) : (p.bind f).Fails reports :=
  fun _ _ _ _ h => reported_bind h (fun hbad => hp hbad) hf

theorem Fails.map (hp : p.Fails reports) (f : α → β) : (p.map f).Fails reports := by
  intro c progress deadEnds stop h
  obtain ⟨⟨step, _⟩, hr, heq⟩ := map_cases h
  cases step with
  | good => cases heq
  | bad progress' problems =>
    cases heq
    exact hp hr

/--
What a sequence reports, if its first part always makes progress or its second part fails only with
progress: then the sequence fails without progress only in its first part.
-/
theorem Reports.bind (hp : p.Reports missing reports) {f : α → Parser β}
    (hf : ∀ value, (f value).Fails reports)
    (hprogress : p.Progressive ∨ ∀ value, (f value).Commits) :
    (p.bind f).Reports missing reports := by
  refine ⟨fun c deadEnds stop h => ?_, fun _ _ _ h => reported_bind h (hp.refuses ·) hf⟩
  rcases bind_cases h with
    ⟨_, _, _, hbad, heq⟩ | ⟨progress, value, mid, ⟨step, _⟩, hgood, hsecond, heq⟩
  · cases heq
    exact hp.expects hbad
  · cases step with
    | good => cases heq
    | bad progress' problems =>
      simp only [Reply.onStep, Step.after, Reply.mk.injEq, Step.bad.injEq,
        Bool.or_eq_false_iff] at heq
      obtain ⟨⟨⟨rfl, rfl⟩, -⟩, -⟩ := heq
      rcases hprogress with hfirst | hcommits
      · exact absurd hgood (hfirst c value mid)
      · exact absurd hsecond (hcommits value mid _ _)

/-! ## Choice and repetition -/

theorem reports_nothing : (nothing : Parser α).Reports [] reports := by
  refine ⟨fun c deadEnds stop h => ?_, nofun⟩
  cases h
  rfl

theorem Refuses.orElse (hp : p.Refuses reports) (hq : q.Refuses reports) :
    (p.orElse q).Refuses reports := by
  intro c deadEnds stop h
  rcases orElse_cases h with ⟨h, -⟩ | ⟨_, _, -, ⟨_, _, -, heq⟩ | ⟨h, -⟩⟩
  · exact hp h
  · cases heq
  · exact hq h

/-- The alternatives of a choice put together what they miss. -/
theorem Reports.orElse (hp : p.Reports missing reports) (hq : q.Reports missing' reports) :
    (p.orElse q).Reports (missing ++ missing') reports := by
  refine ⟨fun c deadEnds stop h => ?_, hp.refuses.orElse hq.refuses⟩
  rcases orElse_cases h with ⟨-, hne⟩ | ⟨_, _, hpass, ⟨_, _, hpass', heq⟩ | ⟨-, hne⟩⟩
  · exact absurd rfl (hne _ _)
  · cases heq
    rw [List.map_append, hp.expects hpass, hq.expects hpass']
  · exact absurd rfl (hne _ _)

/-- Without its progress a failure reports what is missing, if it always does so at the start. -/
theorem reports_backtrackable
    (h : ∀ ⦃c : Cursor⦄ ⦃progress : Bool⦄ ⦃deadEnds : List DeadEnd⦄ ⦃stop : Cursor⦄,
      p c = some ⟨.bad progress deadEnds, stop⟩ → deadEnds = missing.map c.deadEnd) :
    p.backtrackable.Reports missing reports := by
  constructor
  · intro c deadEnds stop hb
    obtain ⟨⟨step, _⟩, hr, heq⟩ := backtrackable_cases hb
    cases step with
    | good => cases heq
    | bad progress problems =>
      cases heq
      exact h hr
  · intro c deadEnds stop hb
    obtain ⟨⟨step, _⟩, -, heq⟩ := backtrackable_cases hb
    cases step <;> cases heq

/-- A repetition fails only with progress. -/
theorem Refuses.many (hp : p.Refuses reports) : Fails reports p.many := by
  intro c progress deadEnds stop h
  obtain ⟨-, _, _, -, hbad⟩ := many_refused h
  exact hp hbad

/-! ## Tokens -/

/-- A parser that succeeds or does nothing but fail with one problem reports that problem. -/
theorem reports_of_fail {problem : Problem}
    (h : ∀ c, (∃ progress value stop, p c = some ⟨.good progress value, stop⟩) ∨
      p c = fail problem c) : p.Reports [problem] reports := by
  constructor
  · intro c deadEnds stop hbad
    rcases h c with ⟨_, _, _, hgood⟩ | hfail
    · rw [hgood] at hbad
      cases hbad
    · rw [hfail] at hbad
      cases hbad
      rfl
  · intro c deadEnds stop hbad
    rcases h c with ⟨_, _, _, hgood⟩ | hfail
    · rw [hgood] at hbad
      cases hbad
    · rw [hfail] at hbad
      cases hbad

theorem reports_token (text : String) (problem : Problem) (runsOn : Char → Bool) :
    (token text problem runsOn).Reports [problem] reports := by
  refine reports_of_fail fun c => ?_
  unfold token
  split
  · exact Or.inl ⟨_, _, _, rfl⟩
  · exact Or.inr rfl

theorem reports_endOfInput : endOfInput.Reports [.expectingEnd] reports := by
  refine reports_of_fail fun c => ?_
  unfold endOfInput
  split
  · exact Or.inr rfl
  · exact Or.inl ⟨_, _, _, rfl⟩

/-- A name that is missing or reserved is reported as missing. -/
theorem reports_name (rules : NameRules) : (name rules).Reports [.expectingVariable] reports := by
  refine reports_of_fail fun c => ?_
  unfold name
  split
  · dsimp only
    split
    · exact Or.inl ⟨_, _, _, rfl⟩
    · exact Or.inr rfl
  · exact Or.inr rfl

/-- A malformed integer fails with progress, but with the same problem at the same place. -/
theorem int_fails {c stop : Cursor} {progress : Bool} {deadEnds : List DeadEnd}
    (h : int c = some ⟨.bad progress deadEnds, stop⟩) :
    deadEnds = [Problem.expectingInt].map c.deadEnd := by
  rcases int_cases c with ⟨n, stop', hgood⟩ | hbad
  · rw [h] at hgood
    cases hgood
  · rw [h] at hbad
    cases hbad
    rfl

end Parser

/-! ## Levels -/

namespace Level

variable {α : Type} {reports : List (List Problem)} {l : Level α} {only : Associativity}

theorem mem_of_firstSeen {as : List Associativity} {a : Associativity} {c : Cursor}
    (h : l.firstSeen as c = some (some a)) : a ∈ as := by
  induction as with
  | nil => cases h
  | cons a' others ih =>
    rcases firstSeen_cases h with ⟨-, heq⟩ | ⟨-, h⟩
    · cases heq
      exact List.mem_cons_self
    · exact List.mem_cons_of_mem a' (ih h)

/-- Where an operator is seen, reading it does not fail. -/
theorem not_bad_of_sees {a : Associativity} {c stop : Cursor} {progress : Bool}
    {deadEnds : List DeadEnd} (h : l.sees a c = some true) :
    l.operator a c ≠ some ⟨.bad progress deadEnds, stop⟩ := by
  intro hbad
  obtain ⟨r, hr, hgood⟩ := sees_cases h
  rw [hbad] at hr
  cases hr
  cases hgood

section

-- All operators of the level have one associativity.
variable (honly : ∀ {a : Associativity} {c : Cursor}, l.sees a c = some true → a = only)
include honly

/-- A chain is refused as ambiguous only for operators that the level has. -/
theorem fails_close {refused : List Associativity} (value : α)
    (h : ∀ a ∈ refused, a = only → [a.ambiguous] ∈ reports) :
    (l.close refused value).Fails reports := by
  intro c progress deadEnds stop hbad
  rcases close_cases hbad with ⟨-, heq⟩ | ⟨a, hf, heq⟩
  · cases heq
  · cases heq
    exact ⟨_, h a (mem_of_firstSeen hf) (honly (sees_of_firstSeen hf)), _, _, rfl⟩

variable (ht : l.term.Fails reports)
include ht

/-- By induction on what is left, a chain to the left fails with a listed report. -/
theorem fails_chainLeft (hleft : only = .left) (ho : (l.operator .left).Refuses reports) (lhs : α) :
    Parser.Fails reports (l.chainLeft lhs) := by
  have hclose : ∀ a ∈ [Associativity.right, .non], a = only → [a.ambiguous] ∈ reports := by
    subst hleft
    simp
  intro c
  induction c using Cursor.shorterInduction generalizing lhs with
  | step c ih =>
    intro progress deadEnds stop h
    rcases chainLeft_cases h with
      ⟨_, _, -, h⟩ | ⟨_, _, hbad, heq⟩ | ⟨_, combine, behind, ⟨step, _⟩, -, htail, heq⟩
    · exact fails_close honly lhs hclose h
    · cases heq
      exact ho hbad
    · have hfails : (l.leftTail c combine lhs).Fails reports := by
        refine ht.bind fun rhs next progress deadEnds stop hnext => ?_
        obtain ⟨hlt, hnext⟩ := leftTail_next_cases hnext
        exact ih next hlt _ hnext
      cases step with
      | good => cases heq
      | bad progress' problems =>
        cases heq
        exact hfails htail

theorem reported_chainRight (hright : only = .right) (lhs : α) {c stop : Cursor} {progress : Bool}
    {deadEnds : List DeadEnd} (hsees : l.sees .right c = some true)
    (h : l.chainRight lhs c = some ⟨.bad progress deadEnds, stop⟩) : Reported reports deadEnds := by
  have hclose : ∀ a ∈ [Associativity.left, .non], a = only → [a.ambiguous] ∈ reports := by
    subst hright
    simp
  induction c using Cursor.shorterInduction generalizing lhs progress deadEnds stop with
  | step c ih =>
    have htail : ∀ operand, (l.rightTail c operand).Fails reports := by
      intro operand next progress deadEnds stop hnext
      rcases rightTail_cases hnext with ⟨-, hnext⟩ | ⟨hsees, hlt, hnext⟩
      · exact fails_close honly operand hclose hnext
      · exact ih next hlt operand hsees hnext
    rw [chainRight_eq] at h
    exact Parser.reported_bind h (fun hbad => absurd hbad (not_bad_of_sees hsees)) fun combine =>
      ht.bind fun operand => (htail operand).map (combine lhs)

variable (hnon : only = .non → [Associativity.non.ambiguous] ∈ reports)
include hnon

/-- An operator that does not chain fails with a listed report, its ambiguity included. -/
theorem reported_single (hsingle : only = .non) (lhs : α) {c stop : Cursor} {progress : Bool}
    {deadEnds : List DeadEnd} (hsees : l.sees .non c = some true)
    (h : l.single lhs c = some ⟨.bad progress deadEnds, stop⟩) : Reported reports deadEnds := by
  refine Parser.reported_bind h (fun hbad => absurd hbad (not_bad_of_sees hsees)) fun combine =>
    ht.bind fun rhs => fails_close honly _ fun a _ ha => ?_
  subst hsingle
  rw [ha]
  exact hnon rfl

theorem fails_follow (ho : ∀ a, (l.operator a).Refuses reports) (first : α) :
    (l.follow first).Fails reports := by
  intro c progress deadEnds stop h
  obtain ⟨found, hf, ⟨-, heq⟩ | ⟨rfl, h⟩ | ⟨rfl, h⟩ | ⟨rfl, h⟩⟩ := follow_cases h
  · cases heq
  · have hsees := sees_of_firstSeen hf
    exact reported_chainRight honly ht (honly hsees).symm first hsees h
  · exact fails_chainLeft honly ht (honly (sees_of_firstSeen hf)).symm (ho .left) first h
  · have hsees := sees_of_firstSeen hf
    exact reported_single honly ht hnon (honly hsees).symm first hsees h

end

/-- **A level whose operators have one associativity reports what its operands do**, and the use of
an operator without associativity twice. -/
theorem reports_parse {missing : List Problem} (ht : l.term.Reports missing reports)
    (hmem : missing ∈ reports)
    (honly : ∀ {a : Associativity} {c : Cursor}, l.sees a c = some true → a = only)
    (hnon : only = .non → [Associativity.non.ambiguous] ∈ reports)
    (ho : ∀ a, (l.operator a).Refuses reports) (hl : ∀ a, (l.operator a).Progressive) :
    l.parse.Reports missing reports := by
  rw [parse_eq]
  exact ht.bind (fails_follow honly (ht.fails hmem) hnon ho) (Or.inr (commits_follow hl))

end Level

/-! ## Rules -/

namespace Rule

variable {σ : Type → Type} {call : {α : Type} → σ α → Parser α} {α β : Type} {r : Rule σ α}
variable {missing : List Problem} {reports : List (List Problem)}

theorem reports_map (f : α → β) (h : (r.denote call).Reports missing reports) :
    ((r.map f).denote call).Reports missing reports :=
  h.bind (fun value => Parser.fails_succeed (f value))
    (Or.inr fun value => Parser.commits_succeed (f value))

theorem fails_skip_spaces (value : α) :
    ((Parser.chompWhile isLayout).bind fun _ => Parser.succeed value).Fails reports :=
  (Parser.fails_chompWhile isLayout).bind fun _ => Parser.fails_succeed value

theorem fails_spaced (h : (r.denote call).Fails reports) : (r.spaced.denote call).Fails reports :=
  h.bind fails_skip_spaces

theorem reports_spaced (h : (r.denote call).Reports missing reports) :
    (r.spaced.denote call).Reports missing reports :=
  h.bind fails_skip_spaces
    (Or.inr fun value => (Parser.commits_chompWhile isLayout).bind fun _ =>
      Parser.commits_succeed value)

/-- A missing piece of punctuation is reported by its text. -/
theorem reports_sign (text : String) :
    (((symbol text).spaced : Rule σ Unit).denote call).Reports [.expectingSymbol text] reports :=
  reports_spaced (Parser.reports_token _ _ _)

theorem reports_word (text : String) :
    (((keyword text).spaced : Rule σ Unit).denote call).Reports [.expectingKeyword text] reports :=
  reports_spaced (Parser.reports_token _ _ _)

/-- In parentheses the opening one may be missing, and inside what a rule reports or the closing. -/
theorem reports_parens (h : (r.denote call).Fails reports)
    (hclosing : [.expectingSymbol ")"] ∈ reports) :
    ((parens r).denote call).Reports [.expectingSymbol "("] reports := by
  have hopen : (((symbol "(").spaced : Rule σ Unit).denote call).Progressive :=
    progressive_sign (by decide)
  refine Parser.Reports.bind ((reports_sign "(").bind (fun _ => fails_spaced h) (Or.inl hopen))
    (fun value => ?_) (Or.inl hopen.bind)
  exact ((reports_sign ")").fails hclosing).bind fun _ => Parser.fails_succeed value

theorem refuses_oneOf {rs : List (Rule σ α)} (h : ∀ r ∈ rs, (r.denote call).Refuses reports) :
    ((oneOf rs).denote call).Refuses reports := by
  induction rs with
  | nil => exact Parser.reports_nothing.refuses
  | cons r rs ih =>
    rw [List.forall_mem_cons] at h
    exact h.1.orElse (ih h.2)

/-- What the operators of a level must be like for the level to report only what is listed. -/
structure Uniform (call : {α : Type} → σ α → Parser α) (reports : List (List Problem))
    (operators : List (Operator σ α)) (only : Associativity) : Prop where
  associativity : ∀ operator ∈ operators, operator.associativity = only
  ambiguous : only = .non → [Associativity.non.ambiguous] ∈ reports
  refuses : ∀ operator ∈ operators, (operator.rule.denote call).Refuses reports
  progressive : ∀ operator ∈ operators, (operator.rule.denote call).Progressive

/-- A level of one associativity has no operators of another. -/
theorem Uniform.operatorsOf_of_ne {operators : List (Operator σ α)} {only a : Associativity}
    (h : Uniform call reports operators only) (hne : a ≠ only) :
    operatorsOf operators a = .nothing := by
  have hnone : operators.filter (·.associativity = a) = [] := by
    rw [List.filter_eq_nil_iff]
    intro operator hmem
    rw [h.associativity operator hmem]
    simpa using hne.symm
  rw [operatorsOf, hnone]
  rfl

/-- A table misses what its operands miss, and fails with a listed report. -/
theorem reports_table {levels : List (List (Operator σ α))} {term : Rule σ α}
    (ht : (term.denote call).Reports missing reports) (hmem : missing ∈ reports)
    (ho : ∀ operators ∈ levels, ∃ only, Uniform call reports operators only) :
    ((table levels term).denote call).Reports missing reports := by
  induction levels with
  | nil => exact ht
  | cons operators levels ih =>
    rw [List.forall_mem_cons] at ho
    obtain ⟨⟨only, h⟩, hlevels⟩ := ho
    have hoperators : ∀ {a : Associativity} {r : Rule σ (α → α → α)},
        r ∈ (operators.filter (·.associativity = a)).map Operator.rule →
        ∃ operator ∈ operators, operator.rule = r := by
      intro a r hr
      obtain ⟨operator, hop, rfl⟩ := List.mem_map.mp hr
      exact ⟨operator, (List.mem_filter.mp hop).1, rfl⟩
    refine Level.reports_parse (ih hlevels) hmem (fun {a c} hsees => ?_) h.ambiguous
      (fun a => refuses_oneOf fun r hr => ?_) (fun a => progressive_oneOf fun r hr => ?_)
    · refine Decidable.byContradiction fun hne => ?_
      obtain ⟨r, hr, hgood⟩ := Level.sees_cases hsees
      simp only [h.operatorsOf_of_ne hne] at hr
      cases hr
      cases hgood
    · obtain ⟨operator, hop, rfl⟩ := hoperators hr
      exact h.refuses operator hop
    · obtain ⟨operator, hop, rfl⟩ := hoperators hr
      exact h.progressive operator hop

end Rule

end TypedLambda
