import TypedLambda.Proofs.Parser.Replies

/-!
# Two runs that take the same course

Two parsers agree if, started where the texts left correspond, they succeed together with one value
and stop where the texts left correspond, or fail together with the same problems in the same order.
Positions are not compared.

A failure with progress ends a choice and one without does not, so agreement must also hold of the
progress of failures wherever a choice looks at it. That of successes is left out: a number at the
end of a text reports progress only if layout follows it. Two conditions make up for that. Behind a
parser whose successes all report progress the flag of a failure is known, so the second part of the
sequence may agree loosely. And a parser that fails only with progress decides the flag itself.
-/

namespace TypedLambda

/--
Success with one value at corresponding places, or failure with the same problems. The progress of
failures is compared if `exact` is set.
-/
inductive Reply.Agree {α : Type} (exact : Bool) (R : List Char → List Char → Prop) :
    Reply α → Reply α → Prop
  | good {progress progress' : Bool} {value : α} {stop stop' : Cursor}
    (h : R stop.rest stop'.rest) :
    Agree exact R ⟨.good progress value, stop⟩ ⟨.good progress' value, stop'⟩
  | bad {progress progress' : Bool} {problems problems' : List DeadEnd} {stop stop' : Cursor}
    (hprogress : exact = true → progress = progress')
    (h : problems.map DeadEnd.problem = problems'.map DeadEnd.problem) :
    Agree exact R ⟨.bad progress problems, stop⟩ ⟨.bad progress' problems', stop'⟩

/-- From places that correspond by `R` to places that correspond by `R'`, the replies agree. -/
def Parser.Agree {α : Type} (exact : Bool) (R R' : List Char → List Char → Prop)
    (p q : Parser α) : Prop :=
  ∀ ⦃c d : Cursor⦄ ⦃r s : Reply α⦄, R c.rest d.rest → p c = some r → q d = some s →
    Reply.Agree exact R' r s

namespace Reply.Agree

variable {α : Type} {R : List Char → List Char → Prop} {r s : Reply α}

theorem loose {exact : Bool} (h : Reply.Agree true R r s) : Reply.Agree exact R r s := by
  cases h with
  | good hstop => exact .good hstop
  | bad hprogress hproblems => exact .bad (fun _ => hprogress rfl) hproblems

theorem not_passes_left (h : Reply.Agree true R r s)
    (hs : ∀ problems stop, s ≠ ⟨.bad false problems, stop⟩) (problems : List DeadEnd)
    (stop : Cursor) : r ≠ ⟨.bad false problems, stop⟩ := by
  rintro rfl
  cases h with
  | bad hprogress _ =>
    cases hprogress rfl
    exact hs _ _ rfl

theorem not_passes_right (h : Reply.Agree true R r s)
    (hr : ∀ problems stop, r ≠ ⟨.bad false problems, stop⟩) (problems : List DeadEnd)
    (stop : Cursor) : s ≠ ⟨.bad false problems, stop⟩ := by
  rintro rfl
  cases h with
  | bad hprogress _ =>
    cases hprogress rfl
    exact hr _ _ rfl

end Reply.Agree

namespace Parser

variable {α β : Type} {exact : Bool} {R R' R'' : List Char → List Char → Prop}
variable {p p' q q' : Parser α}

/-- Fewer places to start from and more places to stop at. -/
theorem Agree.mono (h : Agree exact R R' p q) {S S' : List Char → List Char → Prop}
    (hS : ∀ s t, S s t → R s t) (hS' : ∀ s t, R' s t → S' s t) : Agree exact S S' p q := by
  intro c d r s hcd hr hs
  cases h (hS _ _ hcd) hr hs with
  | good hstop => exact .good (hS' _ _ hstop)
  | bad hprogress hproblems => exact .bad hprogress hproblems

theorem Agree.loose (h : Agree true R R' p q) : Agree exact R R' p q :=
  fun _ _ _ _ hcd hr hs => (h hcd hr hs).loose

theorem agree_succeed (value : α) : Agree exact R R (succeed value) (succeed value) := by
  intro c d r s hcd hr hs
  cases hr
  cases hs
  exact .good hcd

theorem agree_fail (problem : Problem) :
    Agree exact R R' (fail problem : Parser α) (fail problem) := by
  intro c d r s _ hr hs
  cases hr
  cases hs
  exact .bad (fun _ => rfl) rfl

/-! ## Sequence -/

/--
Sequences agree if their parts do. Where the progress of failures is compared, the first parts
report progress or the second parts fail only with progress.
-/
theorem Agree.bind {exact' : Bool} {f g : α → Parser β} (hp : Agree exact R R' p q)
    (hf : ∀ value, Agree exact' R' R'' (f value) (g value))
    (hprogress : exact = true → (p.Progressive ∧ q.Progressive) ∨
      exact' = true ∧ ∀ value, (f value).Commits) :
    Agree exact R R'' (p.bind f) (q.bind g) := by
  intro c d r s hcd hr hs
  rcases bind_cases hr with ⟨_, _, _, hpc, rfl⟩ | ⟨progress, value, mid, r, hpc, hfc, rfl⟩ <;>
    rcases bind_cases hs with ⟨_, _, _, hqd, rfl⟩ | ⟨progress', value', mid', s, hqd, hgd, rfl⟩ <;>
    cases hp hcd hpc hqd
  · next hbad heq => exact .bad hbad heq
  · next hmid =>
    cases hf value hmid hfc hgd with
    | good hstop => exact .good hstop
    | bad hbad hproblems =>
      refine .bad (fun hexact => ?_) hproblems
      rcases hprogress hexact with ⟨hpp, hqp⟩ | ⟨hexact', hcommits⟩
      · rw [hpp.progress_eq hpc, hqp.progress_eq hqd, Bool.true_or, Bool.true_or]
      · rw [← hbad hexact', (hcommits value).progress_eq hfc, Bool.or_true, Bool.or_true]

/-- Without regard to progress, parts that agree make sequences that do. -/
theorem Agree.bind_loose {f g : α → Parser β} (hp : Agree false R R' p q)
    (hf : ∀ value, Agree false R' R'' (f value) (g value)) :
    Agree false R R'' (p.bind f) (q.bind g) :=
  hp.bind hf fun h => by cases h

/-- Behind progress, it does not matter whether the second parts agree in theirs. -/
theorem Agree.bind_progressive {f g : α → Parser β} (hp : Agree true R R' p q)
    (hpp : p.Progressive) (hqp : q.Progressive)
    (hf : ∀ value, Agree false R' R'' (f value) (g value)) :
    Agree true R R'' (p.bind f) (q.bind g) :=
  hp.bind hf fun _ => Or.inl ⟨hpp, hqp⟩

/-- If the second parts commit, all their failures have progress. -/
theorem Agree.bind_commits {f g : α → Parser β} (hp : Agree true R R' p q)
    (hf : ∀ value, Agree true R' R'' (f value) (g value)) (hc : ∀ value, (f value).Commits) :
    Agree true R R'' (p.bind f) (q.bind g) :=
  hp.bind hf fun _ => Or.inr ⟨rfl, hc⟩

theorem Agree.map (h : Agree exact R R' p q) (f : α → β) :
    Agree exact R R' (p.map f) (q.map f) := by
  intro c d r s hcd hr hs
  obtain ⟨r, hpc, rfl⟩ := map_cases hr
  obtain ⟨s, hqd, rfl⟩ := map_cases hs
  cases h hcd hpc hqd with
  | good hstop => exact .good hstop
  | bad hprogress hproblems => exact .bad hprogress hproblems

/-! ## Choice -/

theorem agree_nothing : Agree exact R R' (nothing : Parser α) nothing := by
  intro c d r s _ hr hs
  cases hr
  cases hs
  exact .bad (fun _ => rfl) rfl

/-- The progress of the first alternatives must agree, as it decides about the second ones. -/
theorem Agree.orElse (hp : Agree true R R' p p') (hq : Agree true R R' q q') :
    Agree true R R' (p.orElse q) (p'.orElse q') := by
  intro c d r s hcd hr hs
  rcases orElse_cases hr with ⟨hpc, hne⟩ | ⟨problems, stop, hpc, hqc⟩ <;>
    rcases orElse_cases hs with ⟨hpd, hne'⟩ | ⟨problems', stop', hpd, hqd⟩ <;>
    have hfirst := hp hcd hpc hpd
  · exact hfirst
  · exact absurd rfl (hfirst.not_passes_right hne _ _)
  · exact absurd rfl (hfirst.not_passes_left hne' _ _)
  rcases hqc with ⟨more, _, hqc, rfl⟩ | ⟨hqc, hne⟩ <;>
    rcases hqd with ⟨more', _, hqd, rfl⟩ | ⟨hqd, hne'⟩ <;>
    have hsecond := hq hcd hqc hqd
  · cases hfirst with
    | bad _ hproblems =>
      cases hsecond with
      | bad _ hmore =>
        refine .bad (fun _ => rfl) ?_
        rw [List.map_append, List.map_append, hproblems, hmore]
  · exact absurd rfl (hsecond.not_passes_left hne' _ _)
  · exact absurd rfl (hsecond.not_passes_right hne _ _)
  · exact hsecond

/-- Hidden progress agrees, whatever it was. -/
theorem Agree.backtrackable (h : Agree exact R R' p q) :
    Agree true R R' p.backtrackable q.backtrackable := by
  intro c d r s hcd hr hs
  obtain ⟨r, hpc, rfl⟩ := backtrackable_cases hr
  obtain ⟨s, hqd, rfl⟩ := backtrackable_cases hs
  cases h hcd hpc hqd with
  | good hstop => exact .good hstop
  | bad _ hproblems => exact .bad (fun _ => rfl) hproblems

/-! ## Repetition -/

/-- Repetitions agree round by round. -/
theorem Agree.many (h : Agree true R R p q) : Agree true R R p.many q.many := by
  intro c
  induction c using Cursor.shorterInduction with
  | step c ih =>
    intro d r s hcd hr hs
    rcases many_cases hr with
      ⟨_, _, hpc, rfl⟩ | ⟨_, _, hpc, rfl⟩ | ⟨_, _, next, _, hpc, hlt, hothers, rfl⟩ <;>
    rcases many_cases hs with
      ⟨_, _, hqd, rfl⟩ | ⟨_, _, hqd, rfl⟩ | ⟨_, _, next', _, hqd, -, hothers', rfl⟩ <;>
    cases h hcd hpc hqd
    · exact .good hcd
    · next hprogress _ => cases hprogress rfl
    · next hprogress _ => cases hprogress rfl
    · next hproblems => exact .bad (fun _ => rfl) hproblems
    · next hnext =>
      cases ih next hlt hnext hothers hothers' with
      | good hstop => exact .good hstop
      | bad _ hproblems =>
        refine .bad (fun _ => ?_) hproblems
        rw [(commits_many p).progress_eq hothers, (commits_many q).progress_eq hothers',
          Bool.or_true, Bool.or_true]

end Parser

/-! ## Levels -/

namespace Level

variable {α : Type} {R : List Char → List Char → Prop} {l l' : Level α}

section

variable (ho : ∀ a, Parser.Agree true R R (l.operator a) (l'.operator a))
include ho

theorem sees_eq_of_agree {c d : Cursor} (hcd : R c.rest d.rest) {a : Associativity}
    {found found' : Bool} (h : l.sees a c = some found) (h' : l'.sees a d = some found') :
    found = found' := by
  obtain ⟨r, hr, rfl⟩ := sees_cases h
  obtain ⟨s, hs, rfl⟩ := sees_cases h'
  cases ho a hcd hr hs <;> rfl

/-- The same operator is seen first from both places. -/
theorem firstSeen_eq_of_agree {c d : Cursor} (hcd : R c.rest d.rest) {as : List Associativity}
    {found found' : Option Associativity} (h : l.firstSeen as c = some found)
    (h' : l'.firstSeen as d = some found') : found = found' := by
  induction as with
  | nil =>
    cases h
    cases h'
    rfl
  | cons a others ih =>
    rcases firstSeen_cases h with ⟨hs, rfl⟩ | ⟨hs, h⟩ <;>
      rcases firstSeen_cases h' with ⟨hs', rfl⟩ | ⟨hs', h'⟩
    · rfl
    · cases sees_eq_of_agree ho hcd hs hs'
    · cases sees_eq_of_agree ho hcd hs hs'
    · exact ih h h'

theorem agree_close (refused : List Associativity) (value : α) :
    Parser.Agree true R R (l.close refused value) (l'.close refused value) := by
  intro c d r s hcd hr hs
  rcases close_cases hr with ⟨hf, rfl⟩ | ⟨a, hf, rfl⟩ <;>
    rcases close_cases hs with ⟨hf', rfl⟩ | ⟨a', hf', rfl⟩ <;>
    cases firstSeen_eq_of_agree ho hcd hf hf'
  · exact .good hcd
  · exact .bad (fun _ => rfl) rfl

end

/-- Behind the first operand a level fails only with progress, because it has seen an operator. -/
theorem commits_follow (hl : ∀ a, (l.operator a).Progressive) (first : α) :
    (l.follow first).Commits := by
  intro c problems stop h
  obtain ⟨found, hf, h⟩ := follow_cases h
  rcases h with ⟨-, h⟩ | ⟨rfl, h⟩ | ⟨rfl, h⟩ | ⟨rfl, h⟩
  · cases h
  · rw [chainRight_eq] at h
    exact not_passes_of_sees (sees_of_firstSeen hf) ((hl .right).passes_bind_iff.mp ⟨_, _, h⟩)
  · rcases chainLeft_cases h with
      ⟨_, _, hpass, -⟩ | ⟨_, _, -, heq⟩ | ⟨progress, combine, behind, r, ho, hr, heq⟩
    · exact not_passes_of_sees (sees_of_firstSeen hf) ⟨_, _, hpass⟩
    · cases heq
    · have hpass : ((l.operator .left).bind fun combine => l.leftTail c combine first).Passes c :=
        ⟨problems, stop, by rw [Parser.bind_of_good ho, hr, heq]; rfl⟩
      exact not_passes_of_sees (sees_of_firstSeen hf) ((hl .left).passes_bind_iff.mp hpass)
  · exact not_passes_of_sees (sees_of_firstSeen hf) ((hl .non).passes_bind_iff.mp ⟨_, _, h⟩)

section

variable (ht : Parser.Agree true R R l.term l'.term)
  (ho : ∀ a, Parser.Agree true R R (l.operator a) (l'.operator a))
  (hl : ∀ a, (l.operator a).Progressive) (hl' : ∀ a, (l'.operator a).Progressive)
include ht ho hl hl'

theorem agree_single (lhs : α) : Parser.Agree true R R (l.single lhs) (l'.single lhs) :=
  (ho .non).bind_progressive (hl .non) (hl' .non) fun _ =>
    ht.loose.bind_loose fun _ => (agree_close ho _ _).loose

theorem agree_chainLeft (lhs : α) : Parser.Agree true R R (l.chainLeft lhs) (l'.chainLeft lhs) := by
  intro c
  induction c using Cursor.shorterInduction generalizing lhs with
  | step c ih =>
    intro d r s hcd hr hs
    have htail : ∀ combine, Parser.Agree false R R (l.leftTail c combine lhs)
        (l'.leftTail d combine lhs) := by
      intro combine
      refine ht.loose.bind_loose fun rhs next next' r s hnext hr hs => ?_
      obtain ⟨hlt, hr⟩ := leftTail_next_cases hr
      obtain ⟨-, hs⟩ := leftTail_next_cases hs
      exact (ih next hlt _ hnext hr hs).loose
    rcases chainLeft_cases hr with
      ⟨_, _, hoc, hr⟩ | ⟨_, _, hoc, rfl⟩ | ⟨progress, combine, behind, r, hoc, hrest, rfl⟩ <;>
    rcases chainLeft_cases hs with
      ⟨_, _, hod, hs⟩ | ⟨_, _, hod, rfl⟩ | ⟨progress', combine', behind', s, hod, hrest', rfl⟩ <;>
    cases ho .left hcd hoc hod
    · exact agree_close ho _ _ hcd hr hs
    · next hprogress _ => cases hprogress rfl
    · next hprogress _ => cases hprogress rfl
    · next hproblems => exact .bad (fun _ => rfl) hproblems
    · have hchain := (ho .left).bind_progressive (hl .left) (hl' .left) htail
      exact hchain hcd (by rw [Parser.bind_of_good hoc, hrest]; rfl)
        (by rw [Parser.bind_of_good hod, hrest']; rfl)

theorem agree_chainRight (lhs : α) :
    Parser.Agree true R R (l.chainRight lhs) (l'.chainRight lhs) := by
  intro c
  induction c using Cursor.shorterInduction generalizing lhs with
  | step c ih =>
    intro d r s hcd hr hs
    have htail : ∀ operand, Parser.Agree true R R (l.rightTail c operand)
        (l'.rightTail d operand) := by
      intro operand next next' r s hnext hr hs
      rcases rightTail_cases hr with ⟨hsees, hr⟩ | ⟨hsees, hlt, hr⟩ <;>
        rcases rightTail_cases hs with ⟨hsees', hs⟩ | ⟨hsees', -, hs⟩ <;>
        cases sees_eq_of_agree ho hnext hsees hsees'
      · exact agree_close ho _ _ hnext hr hs
      · exact ih next hlt operand hnext hr hs
    rw [chainRight_eq] at hr hs
    have hchain := (ho .right).bind_progressive (hl .right) (hl' .right) fun combine =>
      ht.loose.bind_loose fun operand => ((htail operand).map (combine lhs)).loose
    exact hchain hcd hr hs

theorem agree_follow (first : α) : Parser.Agree true R R (l.follow first) (l'.follow first) := by
  intro c d r s hcd hr hs
  obtain ⟨found, hf, hr⟩ := follow_cases hr
  obtain ⟨found', hf', hs⟩ := follow_cases hs
  obtain rfl := firstSeen_eq_of_agree ho hcd hf hf'
  rcases hr with ⟨rfl, rfl⟩ | ⟨rfl, hr⟩ | ⟨rfl, hr⟩ | ⟨rfl, hr⟩ <;>
    rcases hs with ⟨heq, hs⟩ | ⟨heq, hs⟩ | ⟨heq, hs⟩ | ⟨heq, hs⟩ <;> cases heq
  · cases hs
    exact .good hcd
  · exact agree_chainRight ht ho hl hl' first hcd hr hs
  · exact agree_chainLeft ht ho hl hl' first hcd hr hs
  · exact agree_single ht ho hl hl' first hcd hr hs

/-- Levels agree if their operands and operators do. -/
theorem agree_parse : Parser.Agree true R R l.parse l'.parse := by
  rw [parse_eq, parse_eq]
  exact ht.bind_commits (agree_follow ht ho hl hl') (commits_follow hl)

end

end Level

/-! ## Tables -/

namespace Rule

variable {σ : Type → Type} {call call' : {α : Type} → σ α → Parser α} {α : Type}
variable {R : List Char → List Char → Prop}

theorem agree_oneOf {R' : List Char → List Char → Prop} {rs : List (Rule σ α)}
    (h : ∀ r ∈ rs, Parser.Agree true R R' (r.denote call) (r.denote call')) :
    Parser.Agree true R R' ((oneOf rs).denote call) ((oneOf rs).denote call') := by
  induction rs with
  | nil => exact Parser.agree_nothing
  | cons r rs ih =>
    exact (h r List.mem_cons_self).orElse (ih fun s hs => h s (List.mem_cons_of_mem r hs))

theorem progressive_oneOf {rs : List (Rule σ α)} (h : ∀ r ∈ rs, (r.denote call).Progressive) :
    ((oneOf rs).denote call).Progressive := by
  induction rs with
  | nil => exact fun c value stop hc => by cases hc
  | cons r rs ih =>
    exact (h r List.mem_cons_self).orElse (ih fun s hs => h s (List.mem_cons_of_mem r hs))

/-- Tables agree if their operands and operators do and every operator reports progress. -/
theorem agree_table {levels : List (List (Operator σ α))} {term : Rule σ α}
    (ht : Parser.Agree true R R (term.denote call) (term.denote call'))
    (ho : ∀ level ∈ levels, ∀ operator ∈ level,
      Parser.Agree true R R (operator.rule.denote call) (operator.rule.denote call') ∧
        (operator.rule.denote call).Progressive ∧ (operator.rule.denote call').Progressive) :
    Parser.Agree true R R ((table levels term).denote call) ((table levels term).denote call') := by
  induction levels with
  | nil => exact ht
  | cons level levels ih =>
    have hmem : ∀ {a : Associativity} {r : Rule σ (α → α → α)},
        r ∈ (level.filter (·.associativity = a)).map Operator.rule →
        ∃ operator ∈ level, operator.rule = r := by
      intro a r hr
      obtain ⟨operator, hop, rfl⟩ := List.mem_map.mp hr
      exact ⟨operator, (List.mem_filter.mp hop).1, rfl⟩
    have hlevel := ho level List.mem_cons_self
    have hlevels := ih fun level' hl => ho level' (List.mem_cons_of_mem level hl)
    refine Level.agree_parse hlevels ?_ ?_ ?_
    · intro a
      refine agree_oneOf fun r hr => ?_
      obtain ⟨operator, hop, rfl⟩ := hmem hr
      exact (hlevel operator hop).1
    · intro a
      refine progressive_oneOf fun r hr => ?_
      obtain ⟨operator, hop, rfl⟩ := hmem hr
      exact (hlevel operator hop).2.1
    · intro a
      refine progressive_oneOf fun r hr => ?_
      obtain ⟨operator, hop, rfl⟩ := hmem hr
      exact (hlevel operator hop).2.2

end Rule

end TypedLambda
