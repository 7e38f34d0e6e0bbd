import TypedLambda.Proofs.Grammar.Completion
import TypedLambda.Proofs.Grammar.Operators

/-!
# Chains of operators can be completed

What `Completion` says of sequences and choices is shown here of levels of operators and of tables.
An operator may follow a phrase only if the phrase is closed, so a success also says whether it is:
a phrase that is not ends where nothing can go on (`Attains`).

The operands of a chain are read one after the other, so the statement for a chain is about all that
has been read since the chain started, and goes on from there by induction on the rest.
-/

namespace TypedLambda.Derivation

open Precedence

/-- Phrases that are closed or trailing, with a value, in a text. -/
abbrev Phrases (α : Type) : Type := Ending → α → List Char → List Char → Prop

variable {α : Type} {E : List Char → Prop} {T Tight Loose : Phrases α} {c mid stop : Cursor}

/-- The phrases with a value, however they end. -/
abbrev Phrases.any (T : Phrases α) : α → List Char → List Char → Prop :=
  fun value s rest => ∃ ending, T ending value s rest

/-- A phrase is read from one cursor to another, where nothing can go on if it is not closed. -/
def Attains (E : List Char → Prop) (T : Phrases α) (c : Cursor) (value : α) (stop : Cursor) :
    Prop :=
  ∃ ending, (ending = .trailing → E stop.rest) ∧ Covers (T ending value) c stop

theorem Attains.covers {value : α} (h : Attains E T c value stop) :
    Covers (T.any value) c stop := by
  obtain ⟨ending, -, h⟩ := h
  exact h.mono fun h => ⟨ending, h⟩

/-- Where something could go on, the phrase must be closed. -/
theorem Attains.closed {value : α} (h : Attains E T c value stop) (hE : ¬E stop.rest) :
    Covers (T .closed value) c stop := by
  obtain ⟨ending, htrailing, h⟩ := h
  cases ending with
  | trailing => exact absurd (htrailing rfl) hE
  | closed => exact h

theorem Attains.mono {T' : Phrases α} {value : α} (h : Attains E T c value stop)
    (hT : ∀ {ending s rest}, T ending value s rest → T' ending value s rest) :
    Attains E T' c value stop := by
  obtain ⟨ending, htrailing, h⟩ := h
  exact ⟨ending, htrailing, h.mono hT⟩

/-- What a run of a parser of phrases comes to, told from a cursor before it. -/
abbrev Tracked (E : List Char → Prop) (T : Phrases α) (c : Cursor) (reply : Reply α) : Prop :=
  Explained (Attains E T c) T.any c reply

/-- Each success reaches a phrase, each failure can be completed to one, and there is one. -/
structure Tracks (E : List Char → Prop) (p : Parser α) (T : Phrases α) : Prop where
  replies : ∀ {c reply}, p c = some reply → Tracked E T c reply
  viable : Viable T.any []
  absorbs : ∀ ending value, Absorbs (T ending value)

theorem Phrases.absorbs_any {T : Phrases α} (h : ∀ ending value, Absorbs (T ending value))
    (value : α) : Absorbs (T.any value) := by
  rintro s mid rest ⟨ending, hT⟩ hgap
  exact ⟨ending, h ending value hT hgap⟩

theorem Tracks.follows {p : Parser α} (h : Tracks E p T) : Follows p T.any := by
  refine ⟨fun hreply => ?_, h.viable, Phrases.absorbs_any h.absorbs⟩
  cases h.replies hreply with
  | good h => exact .good h.covers
  | bad h => exact .bad h

/-- A parser that follows a family tracks it, whichever ending its phrases are given. -/
theorem Follows.tracks {p : Parser α} {F : α → List Char → List Char → Prop} (h : Follows p F) :
    Tracks E p fun _ => F := by
  have hviable : Viable (Phrases.any fun _ => F) [] :=
    h.viable.mono (g := id) fun hF => ⟨.closed, hF⟩
  refine ⟨fun hreply => ?_, hviable, fun _ => h.absorbs⟩
  cases h.replies hreply with
  | good h => exact .good ⟨.closed, nofun, h⟩
  | bad h => exact .bad (h.mono (g := id) fun hF => ⟨.closed, hF⟩)

/-- Something read before a phrase makes another phrase of it. -/
theorem Tracked.prepend {A : List Char → List Char → Prop} {T' : Phrases α} {g : α → α}
    {reply : Reply α} (h : Tracked E T mid reply) (hA : Covers A c mid) (habs : Absorbs A)
    (hg : ∀ {ending value s mid rest}, A s mid → T ending value mid rest →
      T' ending (g value) s rest) : Tracked E T' c (reply.onStep (Step.map g)) := by
  cases h with
  | good h =>
    obtain ⟨ending, htrailing, h⟩ := h
    refine .good ⟨ending, htrailing, (hA.trans h).mono ?_⟩
    rintro s rest ⟨behind, hs, hT⟩
    exact hg hs hT
  | bad h =>
    refine .bad ((hA.halts habs h).mono (g := g) ?_)
    rintro value s rest ⟨behind, hs, ending, hT⟩
    exact ⟨ending, hg hs hT⟩

theorem Tracked.mono {T' : Phrases α} {reply : Reply α} (h : Tracked E T c reply)
    (hT : ∀ {ending value s rest}, T ending value s rest → T' ending value s rest) :
    Tracked E T' c reply := by
  cases h with
  | good h => exact .good (h.mono hT)
  | bad h => exact .bad (h.mono (g := id) fun ⟨ending, h⟩ => ⟨ending, hT h⟩)

theorem Tracked.attains {progress : Bool} {value : α}
    (h : Tracked E T c ⟨.good progress value, stop⟩) : Attains E T c value stop := by
  cases h with
  | good h => exact h

/-- Behind a phrase of the family, the text can be completed by nothing at all. -/
theorem Attains.halts {value : α} (h : Attains E T c value stop)
    (habs : ∀ ending value, Absorbs (T ending value)) (problem : Problem) :
    Halts T.any c [stop.deadEnd problem] :=
  h.covers.halts_behind (Phrases.absorbs_any habs value) problem

/-! ## Levels -/

/-- How the phrases of a level are made of the phrases of the next tighter one. -/
structure Joins (ops : List (Connective α)) (Tight Loose : Phrases α) : Prop where
  operand : ∀ {ending value s rest}, Tight ending value s rest → Loose ending value s rest
  left : ∀ {op ending lhs rhs s s₁ s₂ rest}, op ∈ ops → op.associativity = .left →
    Loose .closed lhs s s₁ → Sign op.text s₁ s₂ → Tight ending rhs s₂ rest →
    Loose ending (op.combine lhs rhs) s rest
  right : ∀ {op ending lhs rhs s s₁ s₂ rest}, op ∈ ops → op.associativity = .right →
    Tight .closed lhs s s₁ → Sign op.text s₁ s₂ → Loose ending rhs s₂ rest →
    Loose ending (op.combine lhs rhs) s rest
  non : ∀ {op ending lhs rhs s s₁ s₂ rest}, op ∈ ops → op.associativity = .non →
    Tight .closed lhs s s₁ → Sign op.text s₁ s₂ → Tight ending rhs s₂ rest →
    Loose ending (op.combine lhs rhs) s rest
  absorbs : ∀ ending value, Absorbs (Loose ending value)

/-- An operator starts no word that goes on, and where it starts a phrase may go on. -/
structure Goes (E : List Char → Prop) (ops : List (Connective α)) : Prop where
  prime : ∀ op ∈ ops, Stops Prime op.text.toList
  goes : ∀ op ∈ ops, ∀ {c : Cursor}, op.StartsAt c → ¬E c.rest

theorem covers_operator {op : Connective α} (h : op.StartsAt c)
    (hprime : Stops Prime op.text.toList) : Covers (Sign op.text) c (op.after c) := by
  have hchars : Covers (Token op.text.toList fun _ => True) c (c.advanceBy op.text.toList.length) :=
    covers_token h hprime fun _ _ => trivial
  rw [String.length_toList] at hchars
  refine (hchars.trans covers_layout).mono ?_
  rintro s rest ⟨behind, htoken, hgap⟩
  exact absorbs_token htoken hgap

section

variable {l : Level α} {ops : List (Connective α)} {lhs : α} {reply : Reply α}

/-- A chain is refused behind a phrase, which needs no completion. -/
theorem tracked_close {refused : List Associativity} (hj : Joins ops Tight Loose)
    (h : Attains E Loose c lhs mid) (hreply : l.close refused lhs mid = some reply) :
    Tracked E Loose c reply := by
  rcases Level.close_cases hreply with ⟨-, rfl⟩ | ⟨a, -, rfl⟩
  · exact .good h
  · exact .bad (h.halts hj.absorbs _)

/-- Operators are passed over or read, but never refused. -/
theorem not_refused_operator (hl : Spells l ops) (a : Associativity) (problems : List DeadEnd) :
    l.operator a c ≠ some ⟨.bad true problems, stop⟩ := by
  intro h
  by_cases hn : ∃ op, next ops c = some op ∧ op.associativity = a
  · obtain ⟨op, hn, ha⟩ := hn
    exact (hl.yields hn ha).not_refused h
  · obtain ⟨_, _, hpass⟩ := hl.miss fun op hop ha => hn ⟨op, hop, ha⟩
    rw [h] at hpass
    cases hpass

/-- An operand that is closed, because an operator is read behind it, and the operator. -/
theorem Attains.operator (hl : Spells l ops) (hops : Goes E ops) {a : Associativity}
    {combine : α → α → α} {progress : Bool} (h : Attains E T c lhs mid)
    (ho : l.operator a mid = some ⟨.good progress combine, stop⟩) :
    ∃ op ∈ ops, op.associativity = a ∧ op.combine = combine ∧
      Covers (Then (T .closed lhs) (Sign op.text)) c stop := by
  obtain ⟨op, hn, ha, hcombine, rfl⟩ := hl.operator_cases ⟨progress, ho⟩
  obtain ⟨hmem, hstart⟩ := mem_of_next hn
  exact ⟨op, hmem, ha, hcombine,
    (h.closed (hops.goes op hmem hstart)).trans (covers_operator hstart (hops.prime op hmem))⟩

/-- A left part, an operator behind it and the operand that is read next. -/
theorem Tracked.joined {op : Connective α} {T' : Phrases α} (h : Tracked E T' mid reply)
    (hcovers : Covers (Then (T .closed lhs) (Sign op.text)) c mid)
    (hjoin : ∀ {ending rhs s s₁ s₂ rest}, T .closed lhs s s₁ → Sign op.text s₁ s₂ →
      T' ending rhs s₂ rest → Loose ending (op.combine lhs rhs) s rest) :
    Tracked E Loose c (reply.onStep (Step.map (op.combine lhs))) := by
  refine h.prepend hcovers absorbs_token.then ?_
  rintro ending rhs s mid rest ⟨s₁, hlhs, hsign⟩ hrhs
  exact hjoin hlhs hsign hrhs

variable (hl : Spells l ops) (hops : Goes E ops) (hj : Joins ops Tight Loose)
  (ht : Tracks E l.term Tight)
include hl hops hj ht

/-- The operands so far are the left operand of the next operator. -/
theorem tracked_chainLeft (h : Attains E Loose c lhs mid)
    (hreply : l.chainLeft lhs mid = some reply) : Tracked E Loose c reply := by
  induction mid using Cursor.shorterInduction generalizing lhs reply with
  | step mid ih =>
    rcases Level.chainLeft_cases hreply with
      ⟨_, _, -, hclose⟩ | ⟨_, _, hbad, -⟩ | ⟨progress, combine, behind, r, ho, htail, rfl⟩
    · exact tracked_close hj h hclose
    · exact absurd hbad (not_refused_operator hl .left _)
    · obtain ⟨op, hmem, ha, rfl, hcovers⟩ := h.operator hl hops ho
      -- What is read up to the next operand, and that operand, are a longer left part.
      have hjoin : ∀ {r}, l.term behind = some r →
          Tracked E Loose c (r.onStep (Step.map (op.combine lhs))) :=
        fun hr => (ht.replies hr).joined hcovers (hj.left hmem ha)
      refine Explained.after ?_ progress
      rcases Parser.bind_cases htail with
        ⟨_, _, _, hbad, rfl⟩ | ⟨progress', rhs, next, second, hgood, hnext, rfl⟩
      · exact hjoin hbad
      · obtain ⟨hlt, hnext⟩ := Level.leftTail_next_cases hnext
        exact (ih next hlt (hjoin hgood).attains hnext).after progress'

/-- The rest of the chain is the right operand of the operator. -/
theorem tracked_chainRight (hsees : l.sees .right mid = some true) (h : Attains E Tight c lhs mid)
    (hreply : l.chainRight lhs mid = some reply) : Tracked E Loose c reply := by
  induction mid using Cursor.shorterInduction generalizing c lhs reply with
  | step mid ih =>
    rw [Level.chainRight_eq] at hreply
    rcases Parser.bind_cases hreply with
      ⟨progress, _, _, hbad, -⟩ | ⟨progress, combine, behind, second, ho, hsecond, rfl⟩
    · cases progress with
      | false => exact absurd ⟨_, _, hbad⟩ (Level.not_passes_of_sees hsees)
      | true => exact absurd hbad (not_refused_operator hl .right _)
    · obtain ⟨op, hmem, ha, rfl, hcovers⟩ := h.operator hl hops ho
      have hjoin : ∀ {r}, Tracked E Loose behind r →
          Tracked E Loose c (r.onStep (Step.map (op.combine lhs))) :=
        fun hr => hr.joined hcovers (hj.right hmem ha)
      refine Explained.after ?_ progress
      rcases Parser.bind_cases hsecond with
        ⟨_, _, _, hbad, rfl⟩ | ⟨progress', operand, next, third, hgood, hthird, rfl⟩
      · exact hjoin ((ht.replies hbad).mono hj.operand)
      · obtain ⟨r, hr, rfl⟩ := Parser.map_cases hthird
        refine Explained.after (hjoin ?_) progress'
        have hoperand := (ht.replies hgood).attains
        rcases Level.rightTail_cases hr with ⟨-, hclose⟩ | ⟨hsees, hlt, hchain⟩
        · exact tracked_close hj (hoperand.mono hj.operand) hclose
        · exact ih next hlt hsees hoperand hchain

/-- An operator that does not chain has one operand on either side. -/
theorem tracked_single (hsees : l.sees .non mid = some true) (h : Attains E Tight c lhs mid)
    (hreply : l.single lhs mid = some reply) : Tracked E Loose c reply := by
  rcases Parser.bind_cases hreply with
    ⟨progress, _, _, hbad, -⟩ | ⟨progress, combine, behind, second, ho, hsecond, rfl⟩
  · cases progress with
    | false => exact absurd ⟨_, _, hbad⟩ (Level.not_passes_of_sees hsees)
    | true => exact absurd hbad (not_refused_operator hl .non _)
  · obtain ⟨op, hmem, ha, rfl, hcovers⟩ := h.operator hl hops ho
    have hjoin : ∀ {r}, l.term behind = some r →
        Tracked E Loose c (r.onStep (Step.map (op.combine lhs))) :=
      fun hr => (ht.replies hr).joined hcovers (hj.non hmem ha)
    refine Explained.after ?_ progress
    rcases Parser.bind_cases hsecond with
      ⟨_, _, _, hbad, rfl⟩ | ⟨progress', rhs, next, third, hgood, hthird, rfl⟩
    · exact hjoin hbad
    · exact (tracked_close hj (hjoin hgood).attains hthird).after progress'

/-- **A level tracks its phrases if its operands are tracked.** -/
theorem Tracks.level : Tracks E l.parse Loose := by
  refine ⟨fun hreply => ?_, ht.viable.mono (g := id) fun ⟨ending, h⟩ => ⟨ending, hj.operand h⟩,
    hj.absorbs⟩
  rw [Level.parse_eq] at hreply
  rcases Parser.bind_cases hreply with
    ⟨_, _, _, hbad, rfl⟩ | ⟨progress, first, mid, second, hgood, hsecond, rfl⟩
  · exact (ht.replies hbad).mono hj.operand
  · have hfirst := (ht.replies hgood).attains
    refine Explained.after ?_ progress
    obtain ⟨found, hf, hsecond⟩ := Level.follow_cases hsecond
    rcases hsecond with ⟨-, rfl⟩ | ⟨rfl, hchain⟩ | ⟨rfl, hchain⟩ | ⟨rfl, hchain⟩
    · exact .good (hfirst.mono hj.operand)
    · exact tracked_chainRight hl hops hj ht (Level.sees_of_firstSeen hf) hfirst hchain
    · exact tracked_chainLeft hl hops hj ht (hfirst.mono hj.operand) hchain
    · exact tracked_single hl hops hj ht (Level.sees_of_firstSeen hf) hfirst hchain

end

/-- **A table tracks the phrases of its loosest level if its operands are tracked.** -/
theorem Tracks.table {σ : Type → Type} {call : {α : Type} → σ α → Parser α} {term : Rule σ α}
    {levels : List (List (Connective α))} {T : Nat → Phrases α} {loosest : Nat}
    (hl : Legible levels) (hops : ∀ ops ∈ levels, Goes E ops)
    (hj : ∀ i ops, levels[i]? = some ops → Joins ops (T (loosest + i + 1)) (T (loosest + i)))
    (ht : ∀ rank, Tracks E (term.denote call) (T rank)) :
    Tracks E ((tableRule levels term).denote call) (T loosest) := by
  induction levels generalizing loosest with
  | nil => exact ht loosest
  | cons ops levels ih =>
    have htight : Tracks E ((tableRule levels term).denote call) (T (loosest + 1)) := by
      refine ih hl.tail (fun ops' hmem => hops ops' (List.mem_cons_of_mem ops hmem)) ?_
      intro i ops' hi
      have hnext := hj (i + 1) ops' hi
      rwa [show loosest + (i + 1) = loosest + 1 + i by omega] at hnext
    exact Tracks.level (hl.stage loosest _).spells (hops ops List.mem_cons_self) (hj 0 ops rfl)
      htight

end TypedLambda.Derivation
