import TypedLambda.Parser.Settles
import TypedLambda.Proofs.Parser.Replies

/-!
# Invariants of replies

A property of replies is an invariant if the replies of tokens have it and if it is kept wherever
replies are put together. Then every reply of every rule has it. The recursion of repetitions and
chains is gone through here, once for all such properties: a proof about all runs of all rules is
left with the few facts that make up `Reply.Invariant`.
-/

namespace TypedLambda

/-- A property of replies to runs from a cursor that holds of all rules. -/
structure Reply.Invariant (P : {α : Type} → Cursor → Reply α → Prop) : Prop where
  /-- Characters are read, and progress says whether there were any. -/
  read : ∀ {α : Type} {c : Cursor} {count : Nat} {progress : Bool} (value : α),
    count ≤ c.rest.length → (0 < count ↔ progress = true) →
    P c ⟨.good progress value, c.advanceBy count⟩
  missed : ∀ {α : Type} (c : Cursor) (progress : Bool) (problems : List Problem),
    P c (⟨.bad progress (problems.map c.deadEnd), c⟩ : Reply α)
  failed : ∀ {α β : Type} {c stop : Cursor} {progress : Bool} {problems : List DeadEnd},
    P c (⟨.bad progress problems, stop⟩ : Reply α) → P c (⟨.bad progress problems, stop⟩ : Reply β)
  /-- The failures of two alternatives are put together, and the cursor goes back. -/
  both : ∀ {α : Type} {c stop stop' : Cursor} {problems more : List DeadEnd},
    P c (⟨.bad false problems, stop⟩ : Reply α) → P c (⟨.bad false more, stop'⟩ : Reply α) →
    P c (⟨.bad false (problems ++ more), c⟩ : Reply α)
  after : ∀ {α β : Type} {c mid : Cursor} {progress : Bool} {value : α} {second : Reply β},
    P c ⟨.good progress value, mid⟩ → P mid second → P c (second.onStep (Step.after progress))

namespace Reply.Invariant

variable {P : {α : Type} → Cursor → Reply α → Prop} (hP : Invariant P) {α β : Type}
include hP

theorem still (c : Cursor) (value : α) : P c ⟨.good false value, c⟩ := by
  have hread : P c ⟨.good false value, c.advanceBy 0⟩ := hP.read value (Nat.zero_le _) (by simp)
  rwa [Cursor.advanceBy_zero] at hread

theorem map {c : Cursor} {reply : Reply α} (h : P c reply) (f : α → β) :
    P c (reply.onStep (Step.map f)) := by
  obtain ⟨step, stop⟩ := reply
  cases step with
  | good progress value =>
    -- a changed value is the value of a run that goes on and reads nothing
    have hafter := hP.after h (hP.still stop (f value))
    simpa only [onStep, Step.after, Step.map, Bool.or_false] using hafter
  | bad progress problems => exact hP.failed h

end Reply.Invariant

/-- Every reply has a property. -/
def Parser.Always {α : Type} (P : {α : Type} → Cursor → Reply α → Prop) (p : Parser α) : Prop :=
  ∀ ⦃c : Cursor⦄ ⦃reply : Reply α⦄, p c = some reply → P c reply

namespace Parser

variable {P : {α : Type} → Cursor → Reply α → Prop} {α β : Type} {p q : Parser α}

theorem always_never : (never : Parser α).Always P := nofun

variable (hP : Reply.Invariant P)
include hP

theorem always_succeed (value : α) : (succeed value).Always P := by
  intro c reply h
  cases h
  exact hP.still c value

theorem always_fail (problem : Problem) : (fail problem : Parser α).Always P := by
  intro c reply h
  cases h
  exact hP.missed c false [problem]

theorem always_nothing : (nothing : Parser α).Always P := by
  intro c reply h
  cases h
  exact hP.missed c false []

theorem Always.bind (hp : p.Always P) {f : α → Parser β} (hf : ∀ value, (f value).Always P) :
    (p.bind f).Always P := by
  intro c reply h
  rcases bind_cases h with ⟨_, _, _, hbad, rfl⟩ | ⟨_, value, _, _, hgood, hsecond, rfl⟩
  · exact hP.failed (hp hbad)
  · exact hP.after (hp hgood) (hf value hsecond)

theorem Always.map (hp : p.Always P) (f : α → β) : (p.map f).Always P := by
  intro c reply h
  obtain ⟨r, hr, rfl⟩ := map_cases h
  exact hP.map (hp hr) f

/-- The second alternative starts where the first did. -/
theorem Always.orElse (hp : p.Always P) (hq : q.Always P) : (p.orElse q).Always P := by
  intro c reply h
  rcases orElse_cases h with ⟨h, -⟩ | ⟨_, _, hpass, ⟨_, _, hpass', rfl⟩ | ⟨h, -⟩⟩
  · exact hp h
  · exact hP.both (hp hpass) (hq hpass')
  · exact hq h

/-- By induction on what is left, every round keeps the property. -/
theorem Always.many (hp : p.Always P) : Always P p.many := by
  intro c
  induction c using Cursor.shorterInduction with
  | step c ih =>
    intro reply h
    rcases many_cases h with
      ⟨_, _, -, rfl⟩ | ⟨_, _, hbad, rfl⟩ | ⟨_, value, next, _, hgood, hlt, hothers, rfl⟩
    · exact hP.still c []
    · exact hP.failed (hp hbad)
    · exact hP.after (hp hgood) (hP.map (ih next hlt hothers) (value :: ·))

/-! ## Tokens -/

theorem always_token (text : String) (problem : Problem) (runsOn : Char → Bool) :
    (token text problem runsOn).Always P := by
  intro c reply h
  unfold token at h
  split at h
  · next hc =>
    cases h
    rw [Bool.and_eq_true, List.isPrefixOf_iff_prefix] at hc
    refine hP.read () ?_ ?_
    · rw [← String.length_toList]
      exact hc.1.length_le
    · rw [← String.length_toList, List.length_pos_iff]
      simp
  · exact always_fail hP problem h

theorem always_chompWhile (inClass : Char → Bool) : (chompWhile inClass).Always P := by
  intro c reply h
  cases h
  refine hP.read () (List.takeWhile_prefix inClass).length_le ?_
  rw [List.length_pos_iff]
  simp

theorem always_endOfInput : endOfInput.Always P := by
  intro c reply h
  unfold endOfInput at h
  split at h
  · exact always_fail hP _ h
  · exact always_succeed hP () h

theorem always_name (rules : NameRules) : (name rules).Always P := by
  intro c reply h
  unfold name at h
  split at h
  · next first rest hrest =>
    dsimp only at h
    split at h
    · cases h
      refine hP.read _ ?_ (by simp)
      have hle := (List.takeWhile_prefix (l := rest) rules.inner).length_le
      rw [hrest, List.length_cons, List.length_cons]
      omega
    · exact always_fail hP _ h
  · exact always_fail hP _ h

/-- A malformed integer is missed with progress, though nothing was read. -/
theorem always_int : int.Always P := by
  intro c reply h
  unfold int at h
  dsimp only at h
  split at h
  · exact always_fail hP _ h
  · next hdigits =>
    split at h
    · cases h
      refine hP.read _ (literalDigits_isPrefixOf c.rest).length_le ?_
      rw [List.length_pos_iff]
      simpa using hdigits
    · cases h
      exact hP.missed c true [.expectingInt]

end Parser

/-! ## Levels -/

namespace Level

variable {P : {α : Type} → Cursor → Reply α → Prop} (hP : Reply.Invariant P) {α : Type}
  {l : Level α}
include hP

theorem always_close (refused : List Associativity) (value : α) :
    (l.close refused value).Always P := by
  intro c reply h
  rcases close_cases h with ⟨-, rfl⟩ | ⟨a, -, rfl⟩
  · exact hP.still c value
  · exact hP.missed c true [a.ambiguous]

variable (ht : l.term.Always P) (ho : ∀ a, (l.operator a).Always P)
include ht ho

theorem always_single (lhs : α) : (l.single lhs).Always P :=
  (ho .non).bind hP fun _ => ht.bind hP fun _ => always_close hP _ _

/-- By induction on what is left, every turn of a chain to the left keeps the property. -/
theorem always_chainLeft (lhs : α) : Parser.Always P (l.chainLeft lhs) := by
  intro c
  induction c using Cursor.shorterInduction generalizing lhs with
  | step c ih =>
    intro reply h
    rcases chainLeft_cases h with
      ⟨_, _, -, h⟩ | ⟨_, _, hbad, rfl⟩ | ⟨_, combine, _, _, hgood, htail, rfl⟩
    · exact always_close hP _ _ h
    · exact hP.failed (ho .left hbad)
    · have hbehind : (l.leftTail c combine lhs).Always P := by
        refine ht.bind hP fun rhs d reply hd => ?_
        obtain ⟨hlt, hd⟩ := leftTail_next_cases hd
        exact ih d hlt _ hd
      exact hP.after (ho .left hgood) (hbehind htail)

theorem always_chainRight (lhs : α) : Parser.Always P (l.chainRight lhs) := by
  intro c
  induction c using Cursor.shorterInduction generalizing lhs with
  | step c ih =>
    have htail : ∀ operand, (l.rightTail c operand).Always P := by
      intro operand d reply hd
      rcases rightTail_cases hd with ⟨-, hd⟩ | ⟨-, hlt, hd⟩
      · exact always_close hP _ _ hd
      · exact ih d hlt operand hd
    intro reply h
    rw [chainRight_eq] at h
    have hchain := (ho .right).bind hP fun combine => ht.bind hP fun operand =>
      (htail operand).map hP (combine lhs)
    exact hchain h

/-- A level has the property if its operands and operators do. -/
theorem always_parse : l.parse.Always P := by
  rw [parse_eq]
  refine ht.bind hP fun first c reply h => ?_
  obtain ⟨_, -, ⟨-, rfl⟩ | ⟨-, h⟩ | ⟨-, h⟩ | ⟨-, h⟩⟩ := follow_cases h
  · exact hP.still c first
  · exact always_chainRight hP ht ho first h
  · exact always_chainLeft hP ht ho first h
  · exact always_single hP ht ho first h

end Level

/-! ## Rules and grammars -/

namespace Rule

variable {σ : Type → Type} {α : Type}

/-- Progress is hidden nowhere in the rule, given the names of whose rules this is known. -/
def Overt (known : {α : Type} → σ α → Prop) : {α : Type} → Rule σ α → Prop
  | _, backtrackable _ => False
  | _, bind r f => r.Overt known ∧ ∀ value, (f value).Overt known
  | _, orElse r s => r.Overt known ∧ s.Overt known
  | _, many r => r.Overt known
  | _, level term operator => term.Overt known ∧ ∀ a, (operator a).Overt known
  | _, ref x => known x
  | _, succeed _ | _, problem _ | _, nothing | _, symbol _ | _, keyword _ | _, chompWhile _
  | _, endOfInput | _, name _ | _, int => True

variable {P : {α : Type} → Cursor → Reply α → Prop} {call : {α : Type} → σ α → Parser α}

/--
**Every reply of a rule has the property if those of the names in it have it.** Where the property
is lost when progress is hidden, no progress may be hidden in the rule.
-/
theorem always_of_overt {known : {α : Type} → σ α → Prop} {overt : Bool}
    (hP : Reply.Invariant P)
    (hidden : overt = false → ∀ {α : Type} {c : Cursor} {reply : Reply α}, P c reply →
      P c (reply.onStep Step.withoutProgress))
    (h : ∀ {α : Type} (x : σ α), (overt = true → known x) → (call x).Always P) (r : Rule σ α)
    (hr : overt = true → r.Overt known) : (r.denote call).Always P := by
  induction r with
  | succeed value => exact Parser.always_succeed hP value
  | problem message => exact Parser.always_fail hP _
  | bind r f ihr ihf =>
    exact (ihr fun hovert => (hr hovert).1).bind hP fun value =>
      ihf value fun hovert => (hr hovert).2 value
  | nothing => exact Parser.always_nothing hP
  | orElse r s ihr ihs =>
    exact (ihr fun hovert => (hr hovert).1).orElse hP (ihs fun hovert => (hr hovert).2)
  | backtrackable r ih =>
    cases overt with
    | true => exact (hr rfl).elim
    | false =>
      intro c reply hc
      obtain ⟨reply, hreply, rfl⟩ := Parser.backtrackable_cases hc
      exact hidden rfl (ih nofun hreply)
  | symbol text => exact Parser.always_token hP _ _ _
  | keyword text => exact Parser.always_token hP _ _ _
  | chompWhile inClass => exact Parser.always_chompWhile hP inClass
  | endOfInput => exact Parser.always_endOfInput hP
  | name rules => exact Parser.always_name hP rules
  | int => exact Parser.always_int hP
  | many r ih => exact (ih hr).many hP
  | level term operator iht iho =>
    exact Level.always_parse hP (iht fun hovert => (hr hovert).1) fun a =>
      iho a fun hovert => (hr hovert).2 a
  | ref x => exact h x hr

/-- A property that bears hidden progress holds of all rules, if it holds of the names. -/
theorem always_denote (hP : Reply.Invariant P)
    (hidden : ∀ {α : Type} {c : Cursor} {reply : Reply α}, P c reply →
      P c (reply.onStep Step.withoutProgress))
    (h : ∀ {α : Type} (x : σ α), (call x).Always P) (r : Rule σ α) :
    (r.denote call).Always P := by
  have hr : false = true → r.Overt fun _ => True := nofun
  exact always_of_overt hP (fun _ => hidden) (fun x _ => h x) r hr

end Rule

/-- Such a property holds of all names, by induction on the depth. -/
theorem Grammar.always_call {P : {α : Type} → Cursor → Reply α → Prop} {σ : Type → Type}
    (hP : Reply.Invariant P)
    (hidden : ∀ {α : Type} {c : Cursor} {reply : Reply α}, P c reply →
      P c (reply.onStep Step.withoutProgress))
    (g : Grammar σ) (depth : Nat) {α : Type} (x : σ α) : (g.call depth x).Always P := by
  induction depth generalizing α with
  | zero => exact Parser.always_never
  | succ depth ih => exact Rule.always_denote hP hidden ih (g.rule x)

end TypedLambda
