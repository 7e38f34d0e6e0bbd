import TypedLambda.Parser.Rule

/-!
# Outcomes of parsers

A run that ends does one of three things: it yields a value, it is refused after progress, or it
passes, that is, fails without progress and leaves the choice to another alternative. How much
progress a success reports is left out here, because it decides nothing about the run that follows.

Each parser of the library gets the conditions under which it yields, passes or is refused, in terms
of its parts. Later proofs use these and do not open the parsers.
-/

namespace TypedLambda

/-- A success with the cursor where it stops, or a failure after progress. -/
inductive Verdict (α : Type) where
  | accepted (value : α) (stop : Cursor)
  | refused (problems : List DeadEnd) (stop : Cursor)

def Verdict.map {α β : Type} (f : α → β) : Verdict α → Verdict β
  | accepted value stop => accepted (f value) stop
  | refused problems stop => refused problems stop

namespace Parser

variable {α β : Type} {p q : Parser α} {c stop : Cursor}

def Gives (p : Parser α) (c : Cursor) : Verdict α → Prop
  | .accepted value stop => ∃ progress, p c = some ⟨.good progress value, stop⟩
  | .refused problems stop => p c = some ⟨.bad true problems, stop⟩

/-- Succeeds with a value and stops at a cursor. -/
abbrev Yields (p : Parser α) (c : Cursor) (value : α) (stop : Cursor) : Prop :=
  p.Gives c (.accepted value stop)

/-- Fails without progress. -/
def Passes (p : Parser α) (c : Cursor) : Prop :=
  ∃ problems stop, p c = some ⟨.bad false problems, stop⟩

/-- Runs with the same reply give the same verdict. -/
theorem Gives.of_eq {c' : Cursor} {v : Verdict α} (h : q.Gives c' v) (heq : p c = q c') :
    p.Gives c v := by
  cases v with
  | accepted value stop =>
    obtain ⟨progress, h⟩ := h
    exact ⟨progress, heq.trans h⟩
  | refused problems stop => exact heq.trans h

theorem not_passes_of_ne {reply : Reply α} (h : p c = some reply)
    (hne : ∀ problems stop, reply ≠ ⟨.bad false problems, stop⟩) : ¬p.Passes c := by
  rintro ⟨problems, stop, hp⟩
  exact hne problems stop (Option.some.inj (h.symm.trans hp))

theorem Yields.not_passes {value : α} (h : p.Yields c value stop) : ¬p.Passes c := by
  rintro ⟨problems, stop', hp⟩
  obtain ⟨progress, h⟩ := h
  rw [h] at hp
  cases hp

theorem Yields.not_refused {value : α} {problems : List DeadEnd} {stop' : Cursor}
    (h : p.Yields c value stop) : ¬p.Gives c (.refused problems stop') := by
  intro hr
  have hr : p c = some ⟨.bad true problems, stop'⟩ := hr
  obtain ⟨progress, h⟩ := h
  rw [h] at hr
  cases hr

theorem Yields.unique {value value' : α} {stop' : Cursor} (h : p.Yields c value stop)
    (h' : p.Yields c value' stop') : value = value' ∧ stop = stop' := by
  obtain ⟨progress, h⟩ := h
  obtain ⟨progress', h'⟩ := h'
  rw [h] at h'
  cases h'
  exact ⟨rfl, rfl⟩

theorem not_yields_never {value : α} : ¬(never : Parser α).Yields c value stop := by
  rintro ⟨progress, h⟩
  cases h

/-! ## Success and sequence -/

theorem yields_succeed_iff {value value' : α} :
    (succeed value).Yields c value' stop ↔ value = value' ∧ c = stop := by
  constructor
  · rintro ⟨progress, h⟩
    cases h
    exact ⟨rfl, rfl⟩
  · rintro ⟨rfl, rfl⟩
    exact ⟨false, rfl⟩

/-- A verdict does not tell whether progress was made before. -/
theorem gives_of_after {c' : Cursor} {progress : Bool} {v : Verdict α}
    (heq : p c = (q c').map (Reply.onStep (Step.after progress))) (h : q.Gives c' v) :
    p.Gives c v := by
  cases v with
  | accepted value stop =>
    obtain ⟨progress', h⟩ := h
    exact ⟨progress || progress', by rw [heq, h]; rfl⟩
  | refused problems stop =>
    have h : q c' = some ⟨.bad true problems, stop⟩ := h
    show p c = _
    rw [heq, h]
    simp only [Option.map_some, Reply.onStep, Step.after, Bool.or_true]

/-- A run inside a longer one succeeds with it. -/
theorem yields_of_after {c' : Cursor} {progress : Bool} {value : α}
    (heq : p c = (q c').map (Reply.onStep (Step.after progress))) (h : p.Yields c value stop) :
    q.Yields c' value stop := by
  obtain ⟨progress', h⟩ := h
  rw [heq] at h
  obtain ⟨⟨step, stop'⟩, hq, hreply⟩ := Option.map_eq_some_iff.mp h
  cases step with
  | good progress'' value' =>
    cases hreply
    exact ⟨_, hq⟩
  | bad progress'' problems => cases hreply

/-- Behind a success, the second parser goes on with its progress noted. -/
theorem bind_of_good {f : α → Parser β} {progress : Bool} {value : α} {mid : Cursor}
    (h : p c = some ⟨.good progress value, mid⟩) :
    p.bind f c = (f value mid).map (Reply.onStep (Step.after progress)) := by
  simp only [bind, h]

/-- A sequence is decided by its second part when the first succeeds. -/
theorem gives_bind {f : α → Parser β} {value : α} {mid : Cursor} {v : Verdict β}
    (h : p.Yields c value mid) (hf : (f value).Gives mid v) : (p.bind f).Gives c v := by
  obtain ⟨progress, h⟩ := h
  exact gives_of_after (bind_of_good h) hf

theorem refused_bind {f : α → Parser β} {problems : List DeadEnd}
    (h : p.Gives c (.refused problems stop)) : (p.bind f).Gives c (.refused problems stop) := by
  have h : p c = some ⟨.bad true problems, stop⟩ := h
  show p.bind f c = _
  simp only [bind, h]

theorem passes_bind {f : α → Parser β} (h : p.Passes c) : (p.bind f).Passes c := by
  obtain ⟨problems, stop, h⟩ := h
  exact ⟨problems, stop, by simp only [bind, h]⟩

/-- A sequence replies with the failure of its first part or with what its second part does. -/
theorem bind_cases {f : α → Parser β} {reply : Reply β} (h : p.bind f c = some reply) :
    (∃ progress problems stop, p c = some ⟨.bad progress problems, stop⟩ ∧
      ⟨.bad progress problems, stop⟩ = reply) ∨
    ∃ progress value mid second, p c = some ⟨.good progress value, mid⟩ ∧
      f value mid = some second ∧ second.onStep (Step.after progress) = reply := by
  unfold bind at h
  split at h
  · cases h
  · next progress value mid hp =>
    obtain ⟨second, hf, heq⟩ := Option.map_eq_some_iff.mp h
    exact Or.inr ⟨progress, value, mid, second, hp, hf, heq⟩
  · next progress problems stop hp =>
    exact Or.inl ⟨progress, problems, stop, hp, Option.some.inj h⟩

/-- A sequence passes in its first part, or behind a success that reports no progress. -/
theorem passes_bind_cases {f : α → Parser β} (h : (p.bind f).Passes c) :
    p.Passes c ∨ ∃ value mid, p c = some ⟨.good false value, mid⟩ ∧ (f value).Passes mid := by
  obtain ⟨problems, stop, h⟩ := h
  rcases bind_cases h with
    ⟨progress, more, stop', hp, heq⟩ | ⟨progress, value, mid, ⟨step, stop'⟩, hp, hf, heq⟩
  · cases heq
    exact Or.inl ⟨_, _, hp⟩
  · cases step with
    | good progress' result => cases heq
    | bad progress' more =>
      simp only [Reply.onStep, Step.after, Reply.mk.injEq, Step.bad.injEq,
        Bool.or_eq_false_iff] at heq
      obtain ⟨⟨⟨rfl, rfl⟩, -⟩, -⟩ := heq
      exact Or.inr ⟨value, mid, hp, ⟨_, _, hf⟩⟩

/-- A sequence succeeds if both parts do, the second where the first stopped. -/
theorem yields_bind_iff {f : α → Parser β} {result : β} :
    (p.bind f).Yields c result stop ↔
      ∃ value mid, p.Yields c value mid ∧ (f value).Yields mid result stop := by
  constructor
  · rintro ⟨progress, h⟩
    rcases bind_cases h with ⟨_, _, _, -, heq⟩ | ⟨progress', value, mid, _, hp, -, -⟩
    · cases heq
    · exact ⟨value, mid, ⟨_, hp⟩, yields_of_after (bind_of_good hp) ⟨_, h⟩⟩
  · rintro ⟨value, mid, hp, hf⟩
    exact gives_bind hp hf

/-- Every success reports progress. -/
def Progressive (p : Parser α) : Prop := ∀ c value stop, p c ≠ some ⟨.good false value, stop⟩

/-- A sequence whose first part always makes progress passes only there. -/
theorem Progressive.passes_bind_iff (hp : p.Progressive) {f : α → Parser β} :
    (p.bind f).Passes c ↔ p.Passes c := by
  refine ⟨fun h => ?_, passes_bind⟩
  rcases passes_bind_cases h with h | ⟨value, mid, h, -⟩
  · exact h
  · exact absurd h (hp c value mid)

theorem Progressive.bind (hp : p.Progressive) {f : α → Parser β} : (p.bind f).Progressive := by
  intro c result stop h
  rcases bind_cases h with
    ⟨_, _, _, -, heq⟩ | ⟨progress, value, mid, ⟨step, stop'⟩, hv, -, heq⟩
  · cases heq
  · cases progress with
    | false => exact hp c value mid hv
    | true => cases step <;> cases heq

theorem gives_map {f : α → β} {v : Verdict α} (h : p.Gives c v) : (p.map f).Gives c (v.map f) := by
  cases v with
  | accepted value stop =>
    obtain ⟨progress, h⟩ := h
    exact ⟨progress, by simp only [map, h]; rfl⟩
  | refused problems stop =>
    have h : p c = some ⟨.bad true problems, stop⟩ := h
    show p.map f c = _
    simp only [map, h]
    rfl

theorem yields_map_iff {f : α → β} {result : β} :
    (p.map f).Yields c result stop ↔ ∃ value, p.Yields c value stop ∧ f value = result := by
  constructor
  · rintro ⟨progress, h⟩
    obtain ⟨⟨step, stop'⟩, hp, heq⟩ := Option.map_eq_some_iff.mp h
    cases step with
    | good progress' value =>
      cases heq
      exact ⟨value, ⟨_, hp⟩, rfl⟩
    | bad progress' problems => cases heq
  · rintro ⟨value, h, rfl⟩
    exact gives_map h

/-! ## Choice -/

/-- The first alternative decides unless it passes. -/
theorem orElse_of_not_passes (h : ¬p.Passes c) : p.orElse q c = p c := by
  unfold orElse
  split
  · next problems stop hp => exact absurd ⟨problems, stop, hp⟩ h
  · rfl

/-- Behind an alternative that passes the next one decides unless it passes too. -/
theorem orElse_of_passes (hp : p.Passes c) (hq : ¬q.Passes c) : p.orElse q c = q c := by
  obtain ⟨problems, stop, hp⟩ := hp
  unfold orElse
  rw [hp]
  dsimp only
  split
  · next more stop' h => exact absurd ⟨more, stop', h⟩ hq
  · rfl

/-- The second alternative is taken only if the first is passed over. -/
theorem yields_orElse_iff {value : α} :
    (p.orElse q).Yields c value stop ↔
      p.Yields c value stop ∨ p.Passes c ∧ q.Yields c value stop := by
  constructor
  · rintro ⟨progress, h⟩
    unfold orElse at h
    split at h
    · next problems stop' hp =>
      split at h
      · cases h
      · next reply hq => exact Or.inr ⟨⟨_, _, hp⟩, ⟨_, h⟩⟩
    · next reply hp => exact Or.inl ⟨_, h⟩
  · rintro (⟨progress, h⟩ | ⟨⟨problems, stop', hp⟩, progress, hq⟩)
    · exact ⟨progress, by simp only [orElse, h]⟩
    · exact ⟨progress, by simp only [orElse, hp, hq]⟩

/-- A choice is passed over if both alternatives are. -/
theorem passes_orElse_iff : (p.orElse q).Passes c ↔ p.Passes c ∧ q.Passes c := by
  constructor
  · rintro ⟨problems, stop, h⟩
    unfold orElse at h
    split at h
    · next problems' stop' hp =>
      split at h
      · next more stop'' hq => exact ⟨⟨_, _, hp⟩, ⟨_, _, hq⟩⟩
      · next reply hq => exact absurd h (hq _ _)
    · next reply hp => exact absurd h (hp _ _)
  · rintro ⟨⟨problems, stop, hp⟩, ⟨more, stop', hq⟩⟩
    exact ⟨problems ++ more, c, by simp only [orElse, hp, hq]⟩

theorem passes_nothing : (nothing : Parser α).Passes c := ⟨[], c, rfl⟩

theorem not_yields_nothing {value : α} : ¬(nothing : Parser α).Yields c value stop := by
  rintro ⟨progress, h⟩
  cases h

/-- A choice passes when each alternative does. -/
theorem passes_oneOf_iff {ps : List (Parser α)} :
    (oneOf ps).Passes c ↔ ∀ p ∈ ps, p.Passes c := by
  induction ps with
  | nil => exact ⟨fun _ p hp => absurd hp List.not_mem_nil, fun _ => passes_nothing⟩
  | cons p ps ih =>
    rw [List.forall_mem_cons, ← ih]
    exact passes_orElse_iff

/-- A choice yields what the first alternative yields that does not pass. -/
theorem yields_oneOf_iff {ps : List (Parser α)} {value : α} :
    (oneOf ps).Yields c value stop ↔
      ∃ before p after, ps = before ++ p :: after ∧ (∀ q ∈ before, q.Passes c) ∧
        p.Yields c value stop := by
  induction ps with
  | nil =>
    refine ⟨fun h => absurd h not_yields_nothing, ?_⟩
    rintro ⟨before, p, after, h, -⟩
    cases before <;> cases h
  | cons q ps ih =>
    refine yields_orElse_iff.trans ?_
    constructor
    · rintro (h | ⟨hq, h⟩)
      · exact ⟨[], q, ps, rfl, fun _ hmem => absurd hmem List.not_mem_nil, h⟩
      · obtain ⟨before, p, after, rfl, hb, hp⟩ := ih.mp h
        exact ⟨q :: before, p, after, rfl, List.forall_mem_cons.mpr ⟨hq, hb⟩, hp⟩
    · rintro ⟨before, p, after, h, hb, hp⟩
      cases before with
      | nil =>
        cases h
        exact Or.inl hp
      | cons q' before =>
        cases h
        rw [List.forall_mem_cons] at hb
        exact Or.inr ⟨hb.1, ih.mpr ⟨before, p, after, rfl, hb.2, hp⟩⟩

/-! ## Hidden progress -/

/-- Hiding progress changes no success. -/
theorem yields_backtrackable_iff {value : α} :
    p.backtrackable.Yields c value stop ↔ p.Yields c value stop := by
  unfold Yields Gives backtrackable
  cases hp : p c with
  | none => simp
  | some reply =>
    obtain ⟨step, stop'⟩ := reply
    cases step <;> simp [Reply.onStep, Step.withoutProgress]

/-- Any failure of a parser passes once its progress is hidden. -/
theorem passes_backtrackable {progress : Bool} {problems : List DeadEnd}
    (h : p c = some ⟨.bad progress problems, stop⟩) : p.backtrackable.Passes c :=
  ⟨problems, stop, by rw [backtrackable, h]; rfl⟩

/-! ## Repetition -/

/-- A parser succeeds again and again, each time on a shorter rest. -/
inductive Row (p : Parser α) : Cursor → List α → Cursor → Prop
  | nil {c : Cursor} : Row p c [] c
  | cons {c mid stop : Cursor} {value : α} {values : List α} (h : p.Yields c value mid)
    (hlt : mid.rest.length < c.rest.length) (hrow : Row p mid values stop) :
    Row p c (value :: values) stop

theorem Row.concat {values : List α} {value : α} {mid : Cursor} (hrow : Row p c values mid)
    (h : p.Yields mid value stop) (hlt : stop.rest.length < mid.rest.length) :
    Row p c (values ++ [value]) stop := by
  induction hrow with
  | nil => exact .cons h hlt .nil
  | cons h' hlt' _ ih => exact .cons h' hlt' (ih h hlt)

/-- A repetition ends where the parser is passed over, or starts with a round that moves. -/
theorem yields_many_cases {values : List α} (h : Yields p.many c values stop) :
    (values = [] ∧ stop = c ∧ p.Passes c) ∨
      ∃ value others mid, values = value :: others ∧ p.Yields c value mid ∧
        mid.rest.length < c.rest.length ∧ Yields p.many mid others stop := by
  obtain ⟨progress, h⟩ := h
  rw [many] at h
  split at h
  · cases h
  · next progress' value mid hp =>
    split at h
    · next hlt =>
      obtain ⟨⟨step, stop'⟩, hm, heq⟩ := Option.map_eq_some_iff.mp h
      cases step with
      | good progress'' others =>
        cases heq
        exact Or.inr ⟨value, others, mid, rfl, ⟨_, hp⟩, hlt, ⟨_, hm⟩⟩
      | bad progress'' problems => cases heq
    · cases h
  · cases h
  · next problems stop' hp =>
    cases h
    exact Or.inl ⟨rfl, rfl, ⟨_, _, hp⟩⟩

/-- A repetition reads a row and ends where its body passes. -/
theorem yields_many_iff {values : List α} :
    Yields p.many c values stop ↔ Row p c values stop ∧ p.Passes stop := by
  constructor
  · intro h
    induction values generalizing c with
    | nil =>
      rcases yields_many_cases h with ⟨-, rfl, hp⟩ | ⟨value, others, mid, heq, -⟩
      · exact ⟨.nil, hp⟩
      · cases heq
    | cons value values ih =>
      rcases yields_many_cases h with ⟨heq, -⟩ | ⟨value', others, mid, heq, hv, hlt, hm⟩
      · cases heq
      · cases heq
        obtain ⟨hrow, hp⟩ := ih hm
        exact ⟨.cons hv hlt hrow, hp⟩
  · rintro ⟨hrow, hp⟩
    induction hrow with
    | nil =>
      obtain ⟨problems, stop, hp⟩ := hp
      exact ⟨false, by rw [many, hp]⟩
    | cons h hlt hrow ih =>
      obtain ⟨progress, h⟩ := h
      obtain ⟨progress', hm⟩ := ih hp
      refine ⟨progress || progress', ?_⟩
      rw [many, h]
      dsimp only
      rw [if_pos hlt, hm]
      rfl

end Parser

end TypedLambda
