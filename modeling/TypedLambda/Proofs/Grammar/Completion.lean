import TypedLambda.Proofs.Grammar.Lexical
import TypedLambda.Proofs.Parser.Movement

/-!
# What has been read can be completed

A run is compared with a relation on texts without a look at what follows it. A success reads a
phrase in front of whatever may stand in the place of the text left (`Covers`). A failure is
reported behind a text that can be completed to a phrase (`Halts`). A parser that does both follows
the relation (`Follows`), and sequences and choices of such parsers do so again.

What may stand in the place of the text left is layout, or a text that starts with the same
character (`Fits`): the last token read is still complete in front of it. A prime is left out, since
the parser takes a word in front of a prime and the grammar does not.
-/

namespace TypedLambda.Derivation

variable {α β : Type} {r w s rest u : List Char} {P : Char → Prop} {c mid stop : Cursor}
  {problems : List DeadEnd}

/-! ## Texts in the place of others -/

/-- The second text is empty, or starts with layout, or as the first one does, but for a prime. -/
def Fits (r w : List Char) : Prop := ∀ a ∈ w.head?, Blank a ∨ a ∈ r.head? ∧ ¬Prime a

/-- Layout fits anywhere. -/
theorem fits_space : Fits r (' ' :: w) := by
  intro a ha
  cases ha
  exact Or.inl (Or.inl rfl)

/-- A class of characters without layout stops in front of a text that fits. -/
theorem Fits.stops (h : Fits r w) (hr : Stops P r) (hP : ∀ a, P a → ¬Blank a) : Stops P w := by
  intro a ha hPa
  rcases h a ha with hblank | ⟨hmem, -⟩
  · exact hP a hPa hblank
  · exact hr a hmem hPa

/-- A text that starts as what is read there fits, however it goes on. -/
theorem fits_of_spans {a : Char} (hspans : mid.Spans (a :: u) stop)
    (hprime : Stops Prime (a :: u)) : Fits mid.rest (a :: u ++ w) := by
  rw [hspans.rest]
  intro b hb
  cases hb
  exact Or.inr ⟨rfl, hprime a rfl⟩

/-- What was read, with a text that fits behind it, fits where it was read. -/
theorem Fits.append (h : Fits stop.rest w) (hspans : mid.Spans u stop) (hprime : Stops Prime u) :
    Fits mid.rest (u ++ w) := by
  cases u with
  | nil =>
    rw [hspans.rest]
    exact h
  | cons a u => exact fits_of_spans hspans hprime

theorem stops_append {t : List Char} (hs : Stops P s) (ht : Stops P t) : Stops P (s ++ t) := by
  cases s with
  | nil => exact ht
  | cons a s => exact stops_cons_iff.mpr (stops_cons_iff.mp hs)

/-! ## Relations on texts -/

/-- Layout behind a phrase belongs to it. -/
def Absorbs (A : List Char → List Char → Prop) : Prop :=
  ∀ ⦃s mid rest⦄, A s mid → Gap mid rest → A s rest

/-- One phrase and then another. -/
def Then (A B : List Char → List Char → Prop) (s rest : List Char) : Prop :=
  ∃ mid, A s mid ∧ B mid rest

variable {A B : List Char → List Char → Prop}

theorem absorbs_token {chars : List Char} {MayFollow : List Char → Prop} :
    Absorbs (Token chars MayFollow) := by
  rintro s mid rest ⟨behind, rfl, hf, hg⟩ hgap
  exact ⟨behind, rfl, hf, hg.trans hgap⟩

theorem absorbs_gap : Absorbs Gap := fun _ _ _ => Gap.trans

theorem Absorbs.then (hB : Absorbs B) : Absorbs (Then A B) := by
  rintro s mid rest ⟨behind, ha, hb⟩ hgap
  exact ⟨behind, ha, hB hb hgap⟩

theorem DerivesType.absorbs {atomic : Bool} {type : Ty} :
    Absorbs fun s rest => DerivesType atomic s type rest := by
  intro s mid rest h hgap
  induction h with
  | int h => exact .int (absorbs_token h hgap)
  | bool h => exact .bool (absorbs_token h hgap)
  | parens ho ht hc => exact .parens ho ht (absorbs_token hc hgap)
  | atom _ ih => exact .atom (ih hgap)
  | arrow hs ha _ _ iht => exact .arrow hs ha (iht hgap)

/-- Layout behind an expression belongs to it. -/
theorem Derives.absorbs {category : Category} {ending : Ending} {e : Expr} :
    Absorbs fun s rest => Derives category ending s e rest := by
  intro s mid rest h hgap
  induction h with
  | parens ho he hc => exact .parens ho he (absorbs_token hc hgap)
  | yes h => exact .yes (absorbs_token h hgap)
  | no h => exact .no (absorbs_token h hgap)
  | number h =>
    obtain ⟨digits, hn, h⟩ := h
    exact .number ⟨digits, hn, absorbs_token h hgap⟩
  | var h => exact .var ⟨h.1, absorbs_token h.2 hgap⟩
  | ite hi hc ht hy he _ _ _ ihn => exact .ite hi hc ht hy he (ihn hgap)
  | lam hl hp hc ht hd _ ih => exact .lam hl hp hc ht hd (ih hgap)
  | single _ ih => exact .single (ih hgap)
  | apply hf _ _ iha => exact .apply hf (iha hgap)
  | operand _ ih => exact .operand (ih hgap)
  | join hle hl ho _ _ ihr => exact .join hle hl ho (ihr hgap)

/-! ## Successes -/

/-- From one cursor to another a phrase is read, in front of whatever fits there. -/
def Covers (A : List Char → List Char → Prop) (c stop : Cursor) : Prop :=
  ∃ u, c.Spans u stop ∧ Stops Prime u ∧ ∀ w, Fits stop.rest w → A (u ++ w) w

theorem Covers.mono (h : Covers A c stop) (hAB : ∀ {s rest}, A s rest → B s rest) :
    Covers B c stop := by
  obtain ⟨u, hspans, hprime, hA⟩ := h
  exact ⟨u, hspans, hprime, fun w hw => hAB (hA w hw)⟩

/-- Two phrases in a row are covered as one. -/
theorem Covers.trans (hA : Covers A c mid) (hB : Covers B mid stop) :
    Covers (Then A B) c stop := by
  obtain ⟨u, hspans, hprime, hA⟩ := hA
  obtain ⟨u', hspans', hprime', hB⟩ := hB
  refine ⟨u ++ u', hspans.trans hspans', stops_append hprime hprime', fun w hw => ?_⟩
  rw [List.append_assoc]
  exact ⟨u' ++ w, hA _ (hw.append hspans' hprime'), hB w hw⟩

/-- A token is read, in front of what it can be read in front of. -/
theorem covers_token {chars : List Char} {MayFollow : List Char → Prop} (hp : chars <+: c.rest)
    (hprime : Stops Prime chars)
    (hfollow : ∀ w, Fits (c.rest.drop chars.length) w → MayFollow w) :
    Covers (Token chars MayFollow) c (c.advanceBy chars.length) := by
  refine ⟨chars, ?_, hprime, fun w hw => ⟨w, rfl, hfollow w hw, gap_self⟩⟩
  have hspans := c.spans_advanceBy chars.length
  rwa [← List.prefix_iff_eq_take.mp hp] at hspans

theorem covers_layout : Covers Gap c c.skipLayout := by
  have hspans := c.spans_advanceBy (c.rest.takeWhile isLayout).length
  rw [← List.prefix_iff_eq_take.mp (List.takeWhile_prefix isLayout)] at hspans
  have hblanks : ∀ a ∈ c.rest.takeWhile isLayout, Blank a := fun a ha =>
    isLayout_iff.mp (List.all_eq_true.mp List.all_takeWhile a ha)
  refine ⟨_, hspans, fun a ha hprime => ?_, fun w _ => ⟨_, rfl, hblanks⟩⟩
  have hblank := hblanks a (List.mem_of_mem_head? ha)
  obtain rfl : a = '\x27' := hprime
  exact absurd hblank (by decide)

/-! ## Failures -/

/-- The text can be completed to a phrase of the family, whatever follows. -/
def Viable (A : α → List Char → List Char → Prop) (u : List Char) : Prop :=
  ∃ t value, ∀ rest, A value (u ++ (t ++ rest)) rest

/-- The dead end lies at a cursor. -/
def DeadEndAt (d : Cursor) (x : DeadEnd) : Prop :=
  x.row = d.position.row ∧ x.column = d.position.column

/-- Dead ends are reported at one place, and the text up to there can be completed. -/
structure Halts (A : α → List Char → List Char → Prop) (c : Cursor) (problems : List DeadEnd) :
    Prop where
  ne_nil : problems ≠ []
  viable : ∃ u d, c.Spans u d ∧ Stops Prime u ∧ (∀ x ∈ problems, DeadEndAt d x) ∧ Viable A u

variable {F : α → List Char → List Char → Prop} {G : β → List Char → List Char → Prop}

/-- What can be completed to a phrase can be completed to a larger one. -/
theorem Viable.mono {g : α → β} (h : Viable F u)
    (hFG : ∀ {value s rest}, F value s rest → G (g value) s rest) : Viable G u := by
  obtain ⟨t, value, ht⟩ := h
  exact ⟨t, g value, fun rest => hFG (ht rest)⟩

theorem Halts.mono {g : α → β} (h : Halts F c problems)
    (hFG : ∀ {value s rest}, F value s rest → G (g value) s rest) : Halts G c problems := by
  obtain ⟨hne, u, d, hspans, hprime, hat, hviable⟩ := h
  exact ⟨hne, u, d, hspans, hprime, hat, hviable.mono hFG⟩

/-- A dead end at the start is behind the empty text, which must have a completion. -/
theorem halts_here (hne : problems ≠ []) (hat : ∀ x ∈ problems, DeadEndAt c x)
    (hviable : Viable F []) : Halts F c problems :=
  ⟨hne, [], c, c.spans_self, stops_nil, hat, hviable⟩

/-- A failure behind a phrase that is complete. -/
theorem Covers.halts_behind {value : α} (h : Covers (F value) c stop) (habs : Absorbs (F value))
    (problem : Problem) : Halts F c [stop.deadEnd problem] := by
  obtain ⟨u, hspans, hprime, hA⟩ := h
  refine ⟨by simp, u, stop, hspans, hprime, ?_, [' '], value, fun rest => ?_⟩
  · rintro x hx
    cases List.mem_singleton.mp hx
    exact ⟨rfl, rfl⟩
  · exact habs (hA _ fits_space) gap_space

/-- A failure behind a phrase that is to be followed by another one, inside the other one. -/
theorem Covers.halts (hA : Covers A c mid) (habs : Absorbs A) (hF : Halts F mid problems) :
    Halts (fun value => Then A (F value)) c problems := by
  obtain ⟨u, hspans, hprime, hA⟩ := hA
  obtain ⟨hne, u', d, hspans', hprime', hat, t, value, ht⟩ := hF
  refine ⟨hne, u ++ u', d, hspans.trans hspans', stops_append hprime hprime', hat, ?_⟩
  cases u' with
  | nil =>
    -- Nothing of the second phrase has been read, so a space keeps the first one apart.
    refine ⟨' ' :: t, value, fun rest => ⟨t ++ rest, ?_, ht rest⟩⟩
    rw [List.append_nil]
    exact habs (hA _ fits_space) gap_space
  | cons a u' =>
    refine ⟨t, value, fun rest => ⟨a :: u' ++ (t ++ rest), ?_, ht rest⟩⟩
    rw [List.append_assoc]
    exact hA _ (fits_of_spans hspans' hprime')

/-- A failure inside the first of two phrases. -/
theorem Halts.then {H : α → β → List Char → List Char → Prop} (hF : Halts F c problems)
    (hH : ∀ value, Viable (H value) []) :
    Halts (fun result s rest => ∃ value, Then (F value) (H value result) s rest) c problems := by
  obtain ⟨hne, u, d, hspans, hprime, hat, t, value, ht⟩ := hF
  obtain ⟨t', result, ht'⟩ := hH value
  refine ⟨hne, u, d, hspans, hprime, hat, t ++ t', result, fun rest => ?_⟩
  rw [List.append_assoc]
  exact ⟨value, t' ++ rest, ht (t' ++ rest), ht' rest⟩

/-! ## Parsers that follow a relation -/

/-- What a success reaches, or a failure that can be completed to a phrase of a family. -/
inductive Explained (Y : α → Cursor → Prop) (F : α → List Char → List Char → Prop) (c : Cursor) :
    Reply α → Prop
  | good {progress : Bool} {value : α} {stop : Cursor} (h : Y value stop) :
    Explained Y F c ⟨.good progress value, stop⟩
  | bad {progress : Bool} {problems : List DeadEnd} {stop : Cursor} (h : Halts F c problems) :
    Explained Y F c ⟨.bad progress problems, stop⟩

theorem Explained.after {Y : α → Cursor → Prop} {reply : Reply α} (h : Explained Y F c reply)
    (progress : Bool) : Explained Y F c (reply.onStep (Step.after progress)) := by
  cases h with
  | good h => exact .good h
  | bad h => exact .bad h

/-- Each success covers a phrase, each failure can be completed to one, and there is one. -/
structure Follows (p : Parser α) (F : α → List Char → List Char → Prop) : Prop where
  replies : ∀ {c reply}, p c = some reply →
    Explained (fun value stop => Covers (F value) c stop) F c reply
  viable : Viable F []
  absorbs : ∀ value, Absorbs (F value)

namespace Follows

variable {p q : Parser α} {f : α → Parser β} {H : α → β → List Char → List Char → Prop}

theorem yields (h : Follows p F) {value : α} (hv : p.Yields c value stop) :
    Covers (F value) c stop := by
  obtain ⟨progress, hv⟩ := hv
  cases h.replies hv with
  | good hcovers => exact hcovers

theorem fails (h : Follows p F) {progress : Bool}
    (hb : p c = some ⟨.bad progress problems, stop⟩) : Halts F c problems := by
  cases h.replies hb with
  | bad hhalts => exact hhalts

/-- The same values with another relation. -/
theorem mono {F' : α → List Char → List Char → Prop} (h : Follows p F)
    (hF : ∀ {value s rest}, F value s rest → F' value s rest)
    (habs : ∀ value, Absorbs (F' value)) : Follows p F' := by
  refine ⟨fun hreply => ?_, h.viable.mono (g := id) hF, habs⟩
  cases h.replies hreply with
  | good hcovers => exact .good (hcovers.mono hF)
  | bad hhalts => exact .bad (hhalts.mono (g := id) hF)

/-- A phrase and then another: the first is covered, or either of them can be completed. -/
theorem bind (hp : Follows p F) (hf : ∀ value, Follows (f value) (H value)) :
    Follows (p.bind f) fun result s rest => ∃ value, Then (F value) (H value result) s rest := by
  refine ⟨fun hreply => ?_, ?_, ?_⟩
  · rcases Parser.bind_cases hreply with
      ⟨_, _, _, hb, rfl⟩ | ⟨progress, value, mid, second, hv, hsecond, rfl⟩
    · exact .bad ((hp.fails hb).then fun value => (hf value).viable)
    · have hcovers := hp.yields ⟨progress, hv⟩
      cases (hf value).replies hsecond with
      | good h => exact .good ((hcovers.trans h).mono fun h => ⟨value, h⟩)
      | bad h =>
        exact .bad ((hcovers.halts (hp.absorbs value) h).mono (g := id) fun h => ⟨value, h⟩)
  · obtain ⟨t, value, ht⟩ := hp.viable
    obtain ⟨t', result, ht'⟩ := (hf value).viable
    refine ⟨t ++ t', result, fun rest => ⟨value, t' ++ rest, ?_, ht' rest⟩⟩
    rw [List.append_assoc]
    exact ht (t' ++ rest)
  · rintro result s mid rest ⟨value, h⟩ hgap
    exact ⟨value, ((hf value).absorbs result).then h hgap⟩

end Follows

/-- A parser that reads nothing follows layout, as that may be added. -/
theorem follows_succeed (value : α) :
    Follows (Parser.succeed value) fun result s rest => value = result ∧ Gap s rest := by
  refine ⟨fun hreply => ?_, ⟨[], value, fun rest => ⟨rfl, gap_self⟩⟩, ?_⟩
  · cases hreply
    exact .good ⟨[], Cursor.spans_self _, stops_nil, fun w _ => ⟨rfl, gap_self⟩⟩
  · rintro result s mid rest ⟨heq, hgap⟩ hgap'
    exact ⟨heq, hgap.trans hgap'⟩

theorem follows_layout : Follows (Parser.chompWhile isLayout) fun _ => Gap := by
  refine ⟨fun hreply => ?_, ⟨[], (), fun rest => gap_self⟩, fun _ => absorbs_gap⟩
  cases hreply
  exact .good covers_layout

/-! ## Choice -/

/-- A failure without progress is reported where the parser starts. -/
def Prompt (p : Parser α) : Prop :=
  ∀ ⦃c problems stop⦄, p c = some ⟨.bad false problems, stop⟩ → ∀ x ∈ problems, DeadEndAt c x

section

variable {p q : Parser α} {f : α → Parser β}

/-- Behind a success with progress, every failure has progress. -/
theorem Prompt.bind_progressive (hp : Prompt p) (hprogress : p.Progressive) :
    Prompt (p.bind f) := by
  intro c problems stop hb
  rcases Parser.bind_cases hb with
    ⟨_, _, _, hb, heq⟩ | ⟨progress, value, mid, ⟨step, _⟩, hv, -, heq⟩
  · cases heq
    exact hp hb
  · rw [hprogress.progress_eq hv] at heq
    cases step <;> cases heq

/-- If the second parser commits, only the first can fail without progress. -/
theorem Prompt.bind_commits (hp : Prompt p) (hf : ∀ value, (f value).Commits) :
    Prompt (p.bind f) := by
  intro c problems stop hb
  rcases Parser.bind_cases hb with
    ⟨_, _, _, hb, heq⟩ | ⟨progress, value, mid, ⟨step, _⟩, -, hs, heq⟩
  · cases heq
    exact hp hb
  · cases step with
    | good => cases heq
    | bad progress' more =>
      rw [(hf value).progress_eq hs] at heq
      simp only [Reply.onStep, Step.after, Bool.or_true] at heq
      cases heq

/-- A choice reports both failures where it starts. -/
theorem Prompt.orElse (hp : Prompt p) (hq : Prompt q) : Prompt (p.orElse q) := by
  intro c problems stop hb
  rcases Parser.orElse_cases hb with ⟨hpc, -⟩ | ⟨_, _, hpc, ⟨_, _, hqc, heq⟩ | ⟨hqc, -⟩⟩
  · exact hp hpc
  · cases heq
    exact List.forall_mem_append.mpr ⟨hp hpc, hq hqc⟩
  · exact hq hqc

/-- A choice follows a family if both alternatives do and their dead ends lie at one place. -/
theorem Follows.orElse (hp : Follows p F) (hq : Follows q F) (hpp : Prompt p) (hqp : Prompt q) :
    Follows (p.orElse q) F := by
  refine ⟨fun hreply => ?_, hp.viable, hp.absorbs⟩
  rcases Parser.orElse_cases hreply with ⟨hpc, -⟩ | ⟨_, _, hpc, ⟨_, _, hqc, rfl⟩ | ⟨hqc, -⟩⟩
  · exact hp.replies hpc
  · refine .bad (halts_here ?_ (List.forall_mem_append.mpr ⟨hpp hpc, hqp hqc⟩) hp.viable)
    exact List.append_ne_nil_of_left_ne_nil (hp.fails hpc).ne_nil _
  · exact hq.replies hqc

theorem Follows.orElse_nothing (hp : Follows p F) (hpp : Prompt p) :
    Follows (p.orElse .nothing) F := by
  refine ⟨fun hreply => ?_, hp.viable, hp.absorbs⟩
  rcases Parser.orElse_cases hreply with ⟨hpc, -⟩ | ⟨problems, _, hpc, ⟨_, _, hn, rfl⟩ | ⟨hn, hne⟩⟩
  · exact hp.replies hpc
  · cases hn
    rw [List.append_nil]
    exact .bad (halts_here (hp.fails hpc).ne_nil (hpp hpc) hp.viable)
  · cases hn
    exact absurd rfl (hne [] _)

end

/-! ## Rules -/

section

variable {σ : Type → Type} {call : {α : Type} → σ α → Parser α} {r : Rule σ α}

theorem follows_oneOf {rs : List (Rule σ α)}
    (h : ∀ r ∈ rs, Follows (r.denote call) F ∧ Prompt (r.denote call)) (hne : rs ≠ []) :
    Follows ((Rule.oneOf rs).denote call) F ∧ Prompt ((Rule.oneOf rs).denote call) := by
  induction rs with
  | nil => exact absurd rfl hne
  | cons r rs ih =>
    obtain ⟨hr, hrs⟩ := List.forall_mem_cons.mp h
    cases rs with
    | nil =>
      refine ⟨hr.1.orElse_nothing hr.2, hr.2.orElse ?_⟩
      intro c problems stop hb
      cases hb
      exact fun x hx => absurd hx List.not_mem_nil
    | cons r' rs =>
      obtain ⟨hf, hp⟩ := ih hrs (List.cons_ne_nil _ _)
      exact ⟨hr.1.orElse hf hr.2 hp, hr.2.orElse hp⟩

theorem Follows.map_rule (h : Follows (r.denote call) F) (f : α → β) :
    Follows ((r.map f).denote call) fun result s rest =>
      ∃ value, f value = result ∧ F value s rest := by
  refine (h.bind fun value => follows_succeed (f value)).mono ?_ ?_
  · rintro result s rest ⟨value, mid, hF, heq, hgap⟩
    exact ⟨value, heq, h.absorbs value hF hgap⟩
  · rintro result s mid rest ⟨value, heq, hF⟩ hgap
    exact ⟨value, heq, h.absorbs value hF hgap⟩

theorem Prompt.map_rule (h : Prompt (r.denote call)) (f : α → β) :
    Prompt ((r.map f).denote call) :=
  h.bind_commits fun value => Parser.commits_succeed (f value)

/-- Layout behind a phrase belongs to it, so a family is followed with it too. -/
theorem Follows.spaced (h : Follows (r.denote call) F) : Follows (r.spaced.denote call) F := by
  refine (h.bind fun value => follows_layout.bind fun _ => follows_succeed value).mono ?_ h.absorbs
  rintro result s rest ⟨value, mid, hF, -, mid', hgap, rfl, hgap'⟩
  exact h.absorbs value hF (hgap.trans hgap')

theorem Prompt.spaced (h : Prompt (r.denote call)) : Prompt (r.spaced.denote call) :=
  h.bind_commits fun value => (Parser.commits_chompWhile isLayout).bind fun _ =>
    Parser.commits_succeed value

end

/-! ## Tokens -/

/-- A parser that only ever reports one problem, at its start. -/
theorem follows_of_yields {p : Parser α} (problem : Problem)
    (hyields : ∀ {c value stop}, p.Yields c value stop → Covers (F value) c stop)
    (hfails : ∀ {c progress problems stop}, p c = some ⟨.bad progress problems, stop⟩ →
      problems = [c.deadEnd problem])
    (hviable : Viable F []) (habs : ∀ value, Absorbs (F value)) : Follows p F ∧ Prompt p := by
  have hat : ∀ {c progress problems stop}, p c = some ⟨.bad progress problems, stop⟩ →
      ∀ x ∈ problems, DeadEndAt c x := by
    intro c progress problems stop hb x hx
    rw [hfails hb] at hx
    cases List.mem_singleton.mp hx
    exact ⟨rfl, rfl⟩
  refine ⟨⟨fun {c reply} hreply => ?_, hviable, habs⟩, fun c problems stop hb => hat hb⟩
  obtain ⟨step, stop⟩ := reply
  cases step with
  | good progress value => exact .good (hyields ⟨progress, hreply⟩)
  | bad progress problems =>
    exact .bad (halts_here (by rw [hfails hreply]; simp) (hat hreply) hviable)

/-- A token is read, or nothing is and the token itself completes the text. -/
theorem follows_token {text : String} {problem : Problem} {runsOn : Char → Bool}
    {MayFollow : List Char → Prop} (hprime : Stops Prime text.toList)
    (hfollow : ∀ {r w}, Stops (fun a => runsOn a = true) r → Fits r w → MayFollow w) :
    Follows (Parser.token text problem runsOn) (fun _ => Token text.toList MayFollow) ∧
      Prompt (Parser.token text problem runsOn) := by
  refine follows_of_yields problem ?_ ?_ ?_ fun _ => absorbs_token
  · intro c value stop h
    obtain ⟨hp, hr, rfl⟩ := Parser.yields_token_iff.mp h
    rw [← String.length_toList] at hr ⊢
    exact covers_token hp hprime fun w => hfollow (stops_iff_any.mpr hr)
  · intro c progress problems stop hb
    unfold Parser.token at hb
    split at hb
    · cases hb
    · cases hb
      rfl
  · refine ⟨text.toList ++ [' '], (), fun rest => ⟨' ' :: rest, by simp, ?_, gap_space⟩⟩
    exact hfollow stops_nil fits_space

section

variable (call : {α : Type} → Phrase α → Parser α)

theorem follows_sign (text : String) (hprime : Stops Prime text.toList := by decide) :
    Follows ((Phrase.sign text).denote call) (fun _ => Sign text) ∧
      Prompt ((Phrase.sign text).denote call) := by
  have hsymbol : Follows (Parser.symbol text) (fun _ => Sign text) ∧ Prompt (Parser.symbol text) :=
    follows_token hprime fun _ _ => trivial
  exact ⟨Follows.spaced (r := .symbol text) hsymbol.1, Prompt.spaced (r := .symbol text) hsymbol.2⟩

theorem follows_keyword (text : String) (hprime : Stops Prime text.toList := by decide) :
    Follows ((Rule.keyword text).denote call) (fun _ => Word text) ∧
      Prompt ((Rule.keyword text).denote call) := by
  show Follows (Parser.keyword text) _ ∧ Prompt (Parser.keyword text)
  refine follows_token hprime fun {r w} hr hfits a ha hname => ?_
  rcases hfits a ha with hblank | ⟨hmem, hnot⟩
  · rcases hblank with rfl | rfl | rfl <;> exact absurd hname (by decide)
  · rcases hname with hname | rfl | rfl
    · exact hr a hmem (by simp [isWordChar, hname])
    · exact hr _ hmem (by decide)
    · exact hnot rfl

theorem follows_word (text : String) (hprime : Stops Prime text.toList := by decide) :
    Follows ((Phrase.word text).denote call) (fun _ => Word text) ∧
      Prompt ((Phrase.word text).denote call) :=
  ⟨(follows_keyword call text hprime).1.spaced, (follows_keyword call text hprime).2.spaced⟩

/-- Where a name is missing, any identifier completes the text. -/
theorem follows_identifier :
    Follows (Phrase.identifier.denote call) Identifier ∧
      Prompt (Phrase.identifier.denote call) := by
  have hname : Follows (Parser.name Phrase.identifierRules) Identifier ∧
      Prompt (Parser.name Phrase.identifierRules) := by
    refine follows_of_yields .expectingVariable ?_ ?_ ?_ ?_
    · intro c name stop h
      obtain ⟨hid, ⟨hp, hf⟩, rfl⟩ := yields_identifier_iff.mp h
      obtain ⟨first, others, hname, hlower, -⟩ := hid.1
      have hprime : Stops Prime name.toList := by
        rw [hname]
        exact (visible_cons hlower (by decide)).prime
      refine (covers_token hp hprime fun w hfits => hfits.stops hf ?_).mono fun hw => ⟨hid, hw⟩
      rintro a ha (rfl | rfl | rfl) <;> exact absurd ha (by decide)
    · intro c progress problems stop hb
      unfold Parser.name at hb
      split at hb
      · dsimp only at hb
        split at hb
        · cases hb
        · cases hb
          rfl
      · cases hb
        rfl
    · refine ⟨['x', ' '], "x", fun rest => ⟨⟨⟨'x', [], rfl, rfl, by simp⟩, by decide⟩, ?_⟩⟩
      exact ⟨' ' :: rest, rfl, stops_cons_iff.mpr (by decide), gap_space⟩
    · rintro name s mid rest ⟨hid, hw⟩ hgap
      exact ⟨hid, absorbs_token hw hgap⟩
  exact ⟨Follows.spaced (r := .name _) hname.1, Prompt.spaced (r := .name _) hname.2⟩

theorem Numeral.fits {digits : List Char} (h : Numeral digits r) (hfits : Fits r w) :
    Numeral digits w := by
  cases h with
  | zero h =>
    refine .zero (hfits.stops h ?_)
    rintro a ha (rfl | rfl | rfl) <;> exact absurd ha (by decide)
  | positive hfirst hne hothers hle h =>
    refine .positive hfirst hne hothers hle (hfits.stops h ?_)
    rintro a ha (rfl | rfl | rfl) <;> exact absurd ha (by decide)

theorem follows_number :
    Follows (Rule.int.backtrackable.spaced.denote call) Number ∧
      Prompt (Rule.int.backtrackable.spaced.denote call) := by
  have hint : Follows Parser.int.backtrackable Number ∧ Prompt Parser.int.backtrackable := by
    refine follows_of_yields .expectingInt ?_ ?_ ?_ ?_
    · intro c n stop h
      obtain ⟨digits, hn, ⟨hp, hnum⟩, rfl⟩ := yields_literal_iff.mp h
      have hprime : Stops Prime digits := by
        obtain ⟨first, others, rfl, hdigit⟩ := hnum.head_isDigit
        exact (visible_cons hdigit (by decide)).prime
      exact (covers_token hp hprime fun w => hnum.fits).mono fun h => ⟨digits, hn, h⟩
    · intro c progress problems stop hb
      obtain ⟨⟨step, stop'⟩, hint, heq⟩ := Parser.backtrackable_cases hb
      cases step with
      | good => cases heq
      | bad progress' problems' =>
        cases heq
        unfold Parser.int at hint
        dsimp only at hint
        split at hint
        · cases hint
          rfl
        · split at hint <;> cases hint
          rfl
    · refine ⟨['0', ' '], 0, fun rest => ⟨['0'], rfl, ' ' :: rest, rfl, ?_, gap_space⟩⟩
      exact .zero (stops_cons_iff.mpr (by decide))
    · rintro n s mid rest ⟨digits, hn, h⟩ hgap
      exact ⟨digits, hn, absorbs_token h hgap⟩
  exact ⟨Follows.spaced (r := .backtrackable .int) hint.1,
    Prompt.spaced (r := .backtrackable .int) hint.2⟩

end

end TypedLambda.Derivation
