import TypedLambda.Proofs.Parser.Movement

/-!
# Where a run uses the names of rules

A run uses other rules only at some places. So if one meaning of the names keeps the replies of
another one at those places, the rule keeps its reply (`Parser.Kept`). Unfolding names to a greater
depth is the first use of this: it keeps every reply (`Grammar.kept_call`). From the start of a run
on are places enough for every rule, because runs move forward (`Rule.kept_denote`).
-/

namespace TypedLambda

/-- At some places, every reply of the first parser is a reply of the second. -/
def Parser.Kept {α : Type} (P : Cursor → Prop) (p q : Parser α) : Prop :=
  ∀ c, P c → ∀ reply, p c = some reply → q c = some reply

/-- A success that starts at a place of the first kind stops at one of the second. -/
def Parser.Leads {α : Type} (P Q : Cursor → Prop) (p : Parser α) : Prop :=
  ∀ {c d : Cursor} {value : α}, P c → p.Yields c value d → Q d

namespace Parser

variable {α β : Type} {P Q : Cursor → Prop} {p p' q q' : Parser α}

theorem kept_self (P : Cursor → Prop) (p : Parser α) : Kept P p p := fun _ _ _ h => h

theorem kept_never (P : Cursor → Prop) (p : Parser α) : Kept P never p :=
  fun _ _ _ h => by cases h

/-- A parser that never goes back stays behind a place. -/
theorem Forward.leads (hp : p.Forward) (b : Cursor) : p.Leads b.Onward b.Onward :=
  fun hc h => hc.trans (Forward.yields hp h)

/-- The second part of a sequence is used only where the first leads to. -/
theorem Kept.bind_of_yields {Q : α → Cursor → Prop} (hp : Kept P p p') {f f' : α → Parser β}
    (hmid : ∀ {c d : Cursor} {value : α}, P c → p.Yields c value d → Q value d)
    (hf : ∀ value, Kept (Q value) (f value) (f' value)) : Kept P (p.bind f) (p'.bind f') := by
  intro c hc reply h
  rcases bind_cases h with ⟨_, _, _, hbad, rfl⟩ | ⟨_, value, mid, _, hgood, hsecond, rfl⟩
  · simp only [Parser.bind, hp c hc _ hbad]
  · rw [bind_of_good (hp c hc _ hgood), hf value mid (hmid hc ⟨_, hgood⟩) _ hsecond]
    rfl

/-- Replies are kept in a sequence if both parts keep theirs where they start. -/
theorem Kept.bind (hp : Kept P p p') (hmid : p.Leads P Q) {f f' : α → Parser β}
    (hf : ∀ value, Kept Q (f value) (f' value)) : Kept P (p.bind f) (p'.bind f') :=
  hp.bind_of_yields hmid hf

theorem Kept.map (hp : Kept P p p') (f : α → β) : Kept P (p.map f) (p'.map f) := by
  intro c hc reply h
  obtain ⟨r, hr, rfl⟩ := map_cases h
  simp only [Parser.map, hp c hc _ hr, Option.map_some]

/-- The second part of a choice is used only where the first passes. -/
theorem Kept.orElse (hp : Kept P p p') (hq : Kept (fun c => P c ∧ p.Passes c) q q') :
    Kept P (p.orElse q) (p'.orElse q') := by
  intro c hc reply h
  rcases orElse_cases h with ⟨h, hne⟩ | ⟨problems, stop, hpass, ⟨more, stop', hq', rfl⟩ | ⟨h, hne⟩⟩
  · have hp' := hp c hc _ h
    rw [orElse_of_not_passes (not_passes_of_ne hp' hne), hp']
  · simp only [Parser.orElse, hp c hc _ hpass, hq c ⟨hc, _, _, hpass⟩ _ hq']
  · have hq' := hq c ⟨hc, _, _, hpass⟩ _ h
    rw [orElse_of_passes ⟨_, _, hp c hc _ hpass⟩ (not_passes_of_ne hq' hne), hq']

theorem Kept.backtrackable (hp : Kept P p p') : Kept P p.backtrackable p'.backtrackable := by
  intro c hc reply h
  obtain ⟨r, hr, rfl⟩ := backtrackable_cases h
  simp only [Parser.backtrackable, hp c hc _ hr, Option.map_some]

/-- By induction on what is left, every round is kept. -/
theorem Kept.many (hp : Kept P p p') (hnext : p.Leads P P) : Kept P p.many p'.many := by
  intro c
  induction c using Cursor.shorterInduction with
  | step c ih =>
    intro hc reply h
    rw [Parser.many]
    rcases many_cases h with
      ⟨_, _, hpass, rfl⟩ | ⟨_, _, hbad, rfl⟩ | ⟨_, _, next, _, hgood, hlt, hothers, rfl⟩
    · rw [hp c hc _ hpass]
    · rw [hp c hc _ hbad]
    · rw [hp c hc _ hgood]
      dsimp only
      rw [if_pos hlt, ih next hlt (hnext hc ⟨_, hgood⟩) _ hothers]
      rfl

end Parser

/-! ## Levels -/

namespace Level

variable {α : Type} {P Q : Cursor → Prop} {l l' : Level α}

section

variable (ho : ∀ a, Parser.Kept Q (l.operator a) (l'.operator a))
include ho

theorem kept_sees {c : Cursor} (hc : Q c) {a : Associativity} {found : Bool}
    (h : l.sees a c = some found) : l'.sees a c = some found := by
  obtain ⟨r, hr, rfl⟩ := sees_cases h
  rw [sees, ho a c hc _ hr]
  rfl

theorem kept_firstSeen {c : Cursor} (hc : Q c) {as : List Associativity}
    {found : Option Associativity} (h : l.firstSeen as c = some found) :
    l'.firstSeen as c = some found := by
  induction as with
  | nil => exact h
  | cons a others ih =>
    rw [firstSeen]
    rcases firstSeen_cases h with ⟨hs, rfl⟩ | ⟨hs, h⟩
    · rw [kept_sees ho hc hs]
    · rw [kept_sees ho hc hs]
      exact ih h

theorem kept_close (refused : List Associativity) (value : α) :
    Parser.Kept Q (l.close refused value) (l'.close refused value) := by
  intro c hc reply h
  rw [close]
  rcases close_cases h with ⟨hf, rfl⟩ | ⟨a, hf, rfl⟩
  · rw [kept_firstSeen ho hc hf]
    rfl
  · rw [kept_firstSeen ho hc hf]

-- Operands are used at places of one kind and operators at places of another, and each of the two
-- leads to the other kind.
variable (ht : Parser.Kept P l.term l'.term) (htq : l.term.Leads P Q)
  (hop : ∀ a, (l.operator a).Leads Q P)
include ht htq hop

theorem kept_single (lhs : α) : Parser.Kept Q (l.single lhs) (l'.single lhs) :=
  (ho .non).bind (hop .non) fun _ => ht.bind htq fun _ => kept_close ho _ _

/-- By induction on what is left, every turn of a chain to the left is kept. -/
theorem kept_chainLeft (lhs : α) : Parser.Kept Q (l.chainLeft lhs) (l'.chainLeft lhs) := by
  intro c
  induction c using Cursor.shorterInduction generalizing lhs with
  | step c ih =>
    intro hc reply h
    rw [chainLeft]
    rcases chainLeft_cases h with
      ⟨_, _, hpass, h⟩ | ⟨_, _, hbad, rfl⟩ | ⟨_, combine, behind, _, hgood, htail, rfl⟩
    · rw [ho .left c hc _ hpass]
      exact kept_close ho _ _ c hc _ h
    · rw [ho .left c hc _ hbad]
    · have htail' : Parser.Kept P (l.leftTail c combine lhs) (l'.leftTail c combine lhs) := by
        refine ht.bind htq fun rhs d hd reply h => ?_
        obtain ⟨hlt, h⟩ := leftTail_next_cases h
        rw [if_pos hlt]
        exact ih d hlt _ hd _ h
      have hr := htail' behind (hop .left hc ⟨_, hgood⟩) _ htail
      rw [leftTail] at hr
      rw [ho .left c hc _ hgood]
      dsimp only
      rw [hr, Option.map_some]

theorem kept_chainRight (lhs : α) : Parser.Kept Q (l.chainRight lhs) (l'.chainRight lhs) := by
  intro c
  induction c using Cursor.shorterInduction generalizing lhs with
  | step c ih =>
    have htail : ∀ operand, Parser.Kept Q (l.rightTail c operand) (l'.rightTail c operand) := by
      intro operand d hd reply h
      rw [rightTail]
      rcases rightTail_cases h with ⟨hs, h⟩ | ⟨hs, hlt, h⟩
      · rw [kept_sees ho hd hs]
        exact kept_close ho _ _ d hd _ h
      · rw [kept_sees ho hd hs]
        dsimp only
        rw [if_pos hlt]
        exact ih d hlt _ hd _ h
    intro hc reply h
    rw [chainRight_eq] at h ⊢
    have hchain := (ho .right).bind (hop .right) fun combine =>
      ht.bind htq fun operand => (htail operand).map (combine lhs)
    exact hchain c hc reply h

theorem kept_parse : Parser.Kept P l.parse l'.parse := by
  rw [parse_eq, parse_eq]
  refine ht.bind htq fun first c hc reply h => ?_
  obtain ⟨found, hf, h⟩ := follow_cases h
  rw [follow, kept_firstSeen ho hc hf]
  rcases h with ⟨rfl, rfl⟩ | ⟨rfl, h⟩ | ⟨rfl, h⟩ | ⟨rfl, h⟩
  · rfl
  · exact kept_chainRight ho ht htq hop first c hc _ h
  · exact kept_chainLeft ho ht htq hop first c hc _ h
  · exact kept_single ho ht htq hop first c hc _ h

end

end Level

/-! ## Rules and grammars -/

/-- **A rule keeps its replies from a cursor on when the names in it do.** -/
theorem Rule.kept_denote {σ : Type → Type} {call call' : {α : Type} → σ α → Parser α} {b : Cursor}
    (hfwd : ∀ {α : Type} (x : σ α), (call x).Forward)
    (h : ∀ {α : Type} (x : σ α), Parser.Kept b.Onward (call x) (call' x)) {α : Type}
    (r : Rule σ α) : Parser.Kept b.Onward (r.denote call) (r.denote call') := by
  induction r with
  | bind r f ihr ihf => exact ihr.bind (Parser.Forward.leads (r.forward_denote hfwd) b) ihf
  | orElse r s ihr ihs => exact ihr.orElse fun c hc => ihs c hc.1
  | backtrackable r ih => exact ih.backtrackable
  | many r ih => exact ih.many (Parser.Forward.leads (r.forward_denote hfwd) b)
  | level term operator iht iho =>
    exact Level.kept_parse iho iht (Parser.Forward.leads (term.forward_denote hfwd) b) fun a =>
      Parser.Forward.leads ((operator a).forward_denote hfwd) b
  | ref x => exact h x
  | _ => exact Parser.kept_self _ _

namespace Grammar

variable {σ : Type → Type} (g : Grammar σ)

/-- One more level of depth keeps the replies of every name. -/
theorem kept_call_succ (b : Cursor) (depth : Nat) {α : Type} (x : σ α) :
    Parser.Kept b.Onward (g.call depth x) (g.call (depth + 1) x) := by
  induction depth generalizing α with
  | zero => exact Parser.kept_never _ _
  | succ depth ih => exact Rule.kept_denote (g.forward_call depth) ih (g.rule x)

/-- **Unfolding names to a greater depth keeps every reply.** -/
theorem kept_call (b : Cursor) {depth depth' : Nat} (hd : depth ≤ depth') {α : Type} (x : σ α) :
    Parser.Kept b.Onward (g.call depth x) (g.call depth' x) := by
  induction hd with
  | refl => exact Parser.kept_self _ _
  | step _ ih => exact fun c hc reply h => g.kept_call_succ b _ x c hc reply (ih c hc reply h)

/-- More depth keeps the outcome of a text. -/
theorem run_mono {depth depth' : Nat} (hd : depth ≤ depth') {α : Type} {r : Rule σ α}
    {source : String} {result : Except ParseError α} (h : g.run depth r source = some result) :
    g.run depth' r source = some result := by
  obtain ⟨reply, hr, rfl⟩ := Option.map_eq_some_iff.mp h
  have hkept := Rule.kept_denote (b := .start source) (g.forward_call depth)
    (fun x => g.kept_call _ hd x) (r.skip .endOfInput)
  have hr' : g.denote depth' (r.skip .endOfInput) (.start source) = some reply :=
    hkept _ (Cursor.onward_self _) _ hr
  rw [run, hr', Option.map_some]

end Grammar

end TypedLambda
