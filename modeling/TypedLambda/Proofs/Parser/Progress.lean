import TypedLambda.Expr.Parse
import TypedLambda.Proofs.Parser.Movement

/-!
# What progress tells about movement

A success that reports progress has moved on, whatever the rule. If progress is hidden nowhere in
the rule nor in the rules that it uses, the converse holds too: without progress the cursor is where
it was, after a success and after a failure.

A failure may report progress and yet stay, as a malformed integer and an ambiguous operator do, so
nothing is said about failures with progress.
-/

namespace TypedLambda

/-! ## Replies -/

/-- What the progress of a reply tells about movement from a cursor. -/
structure Reply.Faithful {α : Type} (overt : Bool) (c : Cursor) (reply : Reply α) : Prop where
  moved : ∀ value, reply.step = .good true value → reply.cursor.rest.length < c.rest.length
  /-- Without progress nothing was read, if progress is not hidden. -/
  stayed : overt = true → reply.step.progress = false → reply.cursor = c

theorem Cursor.Onward.length_le {c d : Cursor} (h : c.Onward d) :
    d.rest.length ≤ c.rest.length := by
  obtain ⟨text, h⟩ := h
  rw [h.length_eq]
  omega

namespace Reply

variable {α β : Type} {overt : Bool} {c : Cursor}

/-- A reply at the start is faithful, unless it is a success that claims progress. -/
theorem faithful_still (step : Step α) (h : ∀ value, step ≠ .good true value) :
    Faithful overt c ⟨step, c⟩ :=
  ⟨fun value heq => absurd heq (h value), fun _ _ => rfl⟩

/-- A run of characters is read, and progress says whether there were any. -/
theorem faithful_advanceBy {progress : Bool} {count : Nat} {value : α}
    (hle : count ≤ c.rest.length) (hprogress : 0 < count ↔ progress = true) :
    Faithful overt c ⟨.good progress value, c.advanceBy count⟩ := by
  constructor
  · intro result heq
    obtain rfl : progress = true := by cases heq; rfl
    have hpos := hprogress.mpr rfl
    simp only [Cursor.advanceBy_rest_length]
    omega
  · intro _ hnone
    obtain rfl : progress = false := hnone
    have hzero : count = 0 := by simpa using hprogress
    show c.advanceBy count = c
    rw [hzero, Cursor.advanceBy_zero]

/-- **Two steps in a row are faithful together**, if both go forward. -/
theorem Faithful.after {progress : Bool} {value : α} {mid : Cursor} {second : Reply β}
    (h : Faithful overt c ⟨.good progress value, mid⟩) (h' : second.Faithful overt mid)
    (hmid : c.Onward mid) (hstop : mid.Onward second.cursor) :
    (second.onStep (Step.after progress)).Faithful overt c := by
  have hle := hmid.length_le
  have hle' := hstop.length_le
  obtain ⟨step, stop⟩ := second
  simp only at hle'
  constructor
  · intro result heq
    cases step with
    | bad progress' problems => cases heq
    | good progress' value' =>
      simp only [onStep, Step.after, Step.good.injEq, Bool.or_eq_true] at heq ⊢
      rcases heq.1 with rfl | rfl
      · have hlt : mid.rest.length < c.rest.length := h.moved value rfl
        omega
      · have hlt : stop.rest.length < mid.rest.length := h'.moved value' rfl
        omega
  · intro hovert hprogress
    have hboth : progress = false ∧ step.progress = false := by
      cases step <;> simpa [Step.after, Step.progress] using hprogress
    have hfirst : mid = c := h.stayed hovert hboth.1
    have hsecond : stop = mid := h'.stayed hovert hboth.2
    exact hsecond.trans hfirst

/-- A reply that has gone forward and is faithful, whatever it is made of. -/
theorem invariant_faithful (overt : Bool) : Invariant fun {α : Type} c (reply : Reply α) =>
    c.Onward reply.cursor ∧ reply.Faithful overt c where
  read _ hle hprogress := ⟨Cursor.onward_advanceBy _ _, faithful_advanceBy hle hprogress⟩
  missed c _ _ := ⟨c.onward_self, faithful_still _ nofun⟩
  failed h := ⟨h.1, nofun, h.2.stayed⟩
  both _ _ := ⟨Cursor.onward_self _, faithful_still _ nofun⟩
  after h h' := ⟨h.1.trans h'.1, h.2.after h'.2 h.1 h'.1⟩

/-- Hidden progress claims nothing, so it is faithful where nothing more is asked. -/
theorem Faithful.withoutProgress {reply : Reply α} :
    (reply.onStep Step.withoutProgress).Faithful false c := by
  obtain ⟨step, stop⟩ := reply
  refine ⟨fun value heq => ?_, nofun⟩
  cases step with
  | good progress value' => cases heq
  | bad progress problems => cases heq

end Reply

/-! ## Parsers -/

/-- Goes forward, and progress tells about movement. -/
structure Parser.Faithful {α : Type} (overt : Bool) (p : Parser α) : Prop where
  forward : p.Forward
  replies : ∀ ⦃c : Cursor⦄ ⦃reply : Reply α⦄, p c = some reply → reply.Faithful overt c

/-- Faithful parsers are those all of whose replies go forward and are faithful. -/
theorem Parser.faithful_iff {α : Type} {overt : Bool} {p : Parser α} :
    p.Faithful overt ↔
      p.Always fun {_} c reply => c.Onward reply.cursor ∧ reply.Faithful overt c :=
  ⟨fun hp _ _ h => ⟨hp.forward h, hp.replies h⟩,
    fun hp => ⟨fun h => (hp h).1, fun _ _ h => (hp h).2⟩⟩

/-! ## Rules that hide no progress -/

namespace Rule

variable {σ : Type → Type} {α : Type} {known : {α : Type} → σ α → Prop}

theorem overt_oneOf {rs : List (Rule σ α)} (h : ∀ r ∈ rs, r.Overt known) :
    (oneOf rs).Overt known := by
  induction rs with
  | nil => trivial
  | cons r rs ih =>
    rw [List.forall_mem_cons] at h
    exact ⟨h.1, ih h.2⟩

theorem overt_table {levels : List (List (Operator σ α))} {term : Rule σ α}
    (ht : term.Overt known)
    (ho : ∀ level ∈ levels, ∀ operator ∈ level, operator.rule.Overt known) :
    (table levels term).Overt known := by
  induction levels with
  | nil => exact ht
  | cons level levels ih =>
    rw [List.forall_mem_cons] at ho
    refine ⟨ih ho.2, fun a => overt_oneOf fun r hr => ?_⟩
    obtain ⟨operator, hmem, rfl⟩ := List.mem_map.mp hr
    exact ho.1 operator (List.mem_filter.mp hmem).1

/-- **Every rule is faithful if the names in it are**, and fully so if it hides no progress. -/
theorem faithful_denote {call : {α : Type} → σ α → Parser α} {overt : Bool}
    (h : ∀ {α : Type} (x : σ α), (overt = true → known x) → (call x).Faithful overt)
    (r : Rule σ α) (hr : overt = true → r.Overt known) : (r.denote call).Faithful overt := by
  have hhidden : overt = false → ∀ {α : Type} {c : Cursor} {reply : Reply α},
      c.Onward reply.cursor ∧ reply.Faithful overt c →
      c.Onward reply.cursor ∧ (reply.onStep Step.withoutProgress).Faithful overt c := by
    rintro rfl α c reply ⟨hstop, -⟩
    exact ⟨hstop, Reply.Faithful.withoutProgress⟩
  exact Parser.faithful_iff.mpr (Rule.always_of_overt (Reply.invariant_faithful overt) hhidden
    (fun x hx => Parser.faithful_iff.mp (h x hx)) r hr)

end Rule

/-! ## Grammars -/

namespace Grammar

variable {σ : Type → Type} {α : Type}

/-- Progress is hidden neither in the rule nor in any rule that it comes to use by name. -/
def Overt (g : Grammar σ) (r : Rule σ α) : Prop :=
  ∃ known : {α : Type} → σ α → Prop,
    r.Overt known ∧ ∀ {α : Type} (x : σ α), known x → (g.rule x).Overt known

/-- A name is faithful at every depth if the rules that it comes to use are overt. -/
theorem faithful_call (g : Grammar σ) {known : {α : Type} → σ α → Prop} {overt : Bool}
    (hknown : ∀ {α : Type} (x : σ α), overt = true → known x → (g.rule x).Overt known)
    (depth : Nat) (x : σ α) (hx : overt = true → known x) : (g.call depth x).Faithful overt := by
  induction depth generalizing α with
  | zero => exact Parser.faithful_iff.mpr Parser.always_never
  | succ depth ih =>
    exact Rule.faithful_denote ih (g.rule x) fun hovert => hknown x hovert (hx hovert)

theorem faithful_denote (g : Grammar σ) (known : {α : Type} → σ α → Prop) {overt : Bool}
    (hknown : ∀ {α : Type} (x : σ α), overt = true → known x → (g.rule x).Overt known)
    (depth : Nat) (r : Rule σ α) (hr : overt = true → r.Overt known) :
    (g.denote depth r).Faithful overt :=
  Rule.faithful_denote (g.faithful_call hknown depth) r hr

/--
**Progress tells about movement.** No run goes back, and a success with progress ends at a greater
offset. Where no progress is hidden, a success reports progress exactly if the offset has grown, and
a failure without progress leaves the cursor as it was.
-/
theorem progress_tells_movement (g : Grammar σ) (depth : Nat) (r : Rule σ α) {c : Cursor}
    {reply : Reply α} (h : g.denote depth r c = some reply) :
    c.position.offset ≤ reply.cursor.position.offset ∧
    (∀ value, reply.step = .good true value →
      c.position.offset < reply.cursor.position.offset) ∧
    (g.Overt r →
      (∀ progress value, reply.step = .good progress value →
        (progress = true ↔ c.position.offset < reply.cursor.position.offset)) ∧
      ∀ problems, reply.step = .bad false problems → reply.cursor = c) := by
  have hrule : (g.denote depth r).Faithful false :=
    g.faithful_denote (fun _ => True) (by nofun) depth r (by nofun)
  have hplain := hrule.replies h
  obtain ⟨text, hspans⟩ : c.Onward reply.cursor := Rule.forward_denote (g.forward_call depth) r h
  refine ⟨?_, fun value hgood => hspans.offset_lt_iff.mpr (hplain.moved value hgood), ?_⟩
  · rw [hspans.position]
    exact Position.offset_le_after _ _
  · rintro ⟨known, hr, hknown⟩
    have hfull : reply.Faithful true c :=
      (g.faithful_denote known (fun x _ => hknown x) depth r fun _ => hr).replies h
    refine ⟨fun progress value hgood => ⟨?_, fun hlt => ?_⟩, fun problems hbad => ?_⟩
    · rintro rfl
      exact hspans.offset_lt_iff.mpr (hfull.moved value hgood)
    · cases progress with
      | true => rfl
      | false =>
        have hstay : reply.cursor = c := hfull.stayed rfl (by rw [hgood]; rfl)
        rw [hstay] at hlt
        exact absurd hlt (Nat.lt_irrefl _)
    · exact hfull.stayed rfl (by rw [hbad]; rfl)

end Grammar

/-! ## The phrases of the language -/

namespace Phrase

/-- The phrases that are read without hiding progress; numbers hide it. -/
def HidesNothing : {α : Type} → Phrase α → Prop
  | _, type => True
  | _, expression => False

/-- Types are read without hiding progress, as they have no numbers. -/
theorem overt_typeRule : typeRule.Overt HidesNothing := by
  refine Rule.overt_table (Rule.overt_oneOf ?_) ?_
  · simp [Rule.Overt, Rule.parens, Rule.between, Rule.skip, Rule.skipLeft, Rule.spaced,
      Rule.spaces, Rule.map, word, HidesNothing]
  · simp [Rule.Overt, Rule.map, Rule.spaced, Rule.skip, Rule.spaces, infixed, sign]

theorem overt_type : grammar.Overt (.ref type) := by
  refine ⟨HidesNothing, trivial, fun x hx => ?_⟩
  cases x with
  | expression => exact hx.elim
  | type => exact overt_typeRule

/-- A type is read and reports progress; where no type starts, the cursor stays. -/
theorem progress_tells_movement_type :
    (∃ stop, grammar.denote 3 (.ref type) (.start "(Int) -> Bool x") =
        some ⟨.good true (.arrow .int .bool), stop⟩ ∧
      (Cursor.start "(Int) -> Bool x").position.offset < stop.position.offset) ∧
    ∃ problems stop, grammar.denote 3 (.ref type) (.start "x") = some ⟨.bad false problems, stop⟩ ∧
      stop = .start "x" := by
  have hread : grammar.denote 3 (.ref type) (.start "(Int) -> Bool x") =
      some ⟨.good true (.arrow .int .bool), (Cursor.start "(Int) -> Bool x").advanceBy 14⟩ := by
    decide +kernel
  have hrefused : ∃ problems stop, grammar.denote 3 (.ref type) (.start "x") =
      some ⟨.bad false problems, stop⟩ := ⟨_, _, rfl⟩
  obtain ⟨problems, stop, hrefused⟩ := hrefused
  obtain ⟨hgood, -⟩ := (grammar.progress_tells_movement 3 (.ref type) hread).2.2 overt_type
  obtain ⟨-, hbad⟩ := (grammar.progress_tells_movement 3 (.ref type) hrefused).2.2 overt_type
  exact ⟨⟨_, hread, (hgood true _ rfl).mp rfl⟩, problems, stop, hrefused, hbad problems rfl⟩

/-- A number has been read, but its progress is hidden. -/
example : (number.denote (grammar.call 0) (.start "7")) =
    some ⟨.good false (.int 7), (Cursor.start "7").advanceBy 1⟩ := by
  decide

end Phrase

end TypedLambda
