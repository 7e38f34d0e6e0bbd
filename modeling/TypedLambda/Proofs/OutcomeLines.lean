import Mathlib.Data.List.Basic
import TypedLambda.Proofs.ParseErrors
import TypedLambda.Proofs.RoundTrip
import TypedLambda.Proofs.TypeSafety

/-!
# A line tells its outcome

The line that shows the outcome of a text tells the outcome, up to what closures hide: two texts
give the same line only if both give the same literal, or both a closure, with the same type, or if
both fail in the same stage for the same reason.

The stage is told by the first word of the line. What is left is told part by part: the text of a
type is read back, numbers stand between marks that occur in no number, and the problems that a
failed parse reports are all worded differently.
-/

namespace TypedLambda

/-! ## Cutting a text at a mark -/

/-- The first place of a character divides a text. -/
theorem append_cons_inj_of_not_mem {a : Char} {l l' r r' : List Char} (hl : a ∉ l) (hl' : a ∉ l')
    (h : l ++ a :: r = l' ++ a :: r') : l = l' ∧ r = r' := by
  induction l generalizing l' with
  | nil =>
    cases l' with
    | nil => exact ⟨rfl, (List.cons.inj h).2⟩
    | cons c l' => exact absurd (List.cons.inj h).1 (List.ne_of_not_mem_cons hl')
  | cons b l ih =>
    cases l' with
    | nil => exact absurd (List.cons.inj h).1.symm (List.ne_of_not_mem_cons hl)
    | cons c l' =>
      obtain ⟨rfl, htail⟩ := List.cons.inj h
      obtain ⟨rfl, rfl⟩ :=
        ih (List.not_mem_of_not_mem_cons hl) (List.not_mem_of_not_mem_cons hl') htail
      exact ⟨rfl, rfl⟩

/-- The last place of a mark divides a text, if the character that ends it is not behind it. -/
theorem append_mark_inj {s s' mark t t' : String} (a : Char) (hmark : mark.toList.getLast? = some a)
    (ht : a ∉ t.toList) (ht' : a ∉ t'.toList) (h : s ++ mark ++ t = s' ++ mark ++ t') :
    s = s' ∧ t = t' := by
  obtain ⟨k, hk⟩ := List.getLast?_eq_some_iff.mp hmark
  -- Read backwards, the last place is the first one.
  have hlist := congrArg (fun text => text.toList.reverse) h
  simp only [String.toList_append, hk, List.append_assoc, List.reverse_append,
    List.singleton_append, List.reverse_cons] at hlist
  obtain ⟨hback, -⟩ := append_cons_inj_of_not_mem (by simpa using ht) (by simpa using ht') hlist
  obtain rfl : t = t' := String.toList_inj.mp (List.reverse_injective hback)
  rw [String.append_left_inj, String.append_left_inj] at h
  exact ⟨h, rfl⟩

/-! ## First words -/

/-- The text starts with a word and a space. -/
structure FirstWord (word text : String) : Prop where
  unbroken : ' ' ∉ word.toList
  starts : word.toList ++ [' '] <+: text.toList

namespace FirstWord

variable {word word' text : String}

theorem unique (h : FirstWord word text) (h' : FirstWord word' text) : word = word' := by
  obtain ⟨rest, hrest⟩ := h.starts
  obtain ⟨rest', hrest'⟩ := h'.starts
  rw [← hrest', List.append_assoc, List.append_assoc] at hrest
  exact String.toList_inj.mp (append_cons_inj_of_not_mem h.unbroken h'.unbroken hrest).1

theorem append (h : FirstWord word text) (behind : String) : FirstWord word (text ++ behind) := by
  refine ⟨h.unbroken, ?_⟩
  rw [String.toList_append]
  exact List.prefix_append_of_prefix h.starts

theorem intercalate {texts : List String} (h : FirstWord word text) (mark : String) :
    FirstWord word (mark.intercalate (text :: texts)) := by
  cases texts with
  | nil => rwa [String.intercalate_singleton]
  | cons next texts =>
    rw [String.intercalate_cons_cons]
    exact (h.append mark).append _

end FirstWord

/-- The first word of the message of a type error. -/
def TypeError.opening : TypeError → String
  | mismatch _ _ => "Couldn't"
  | notFunction _ => "Tried"
  | notInScope _ => "Variable"
  | notComparable _ => "Cannot"

/-- The kind of a type error tells the first word of its message. -/
theorem TypeError.firstWord_message (error : TypeError) :
    FirstWord error.opening error.message := by
  cases error with
  | mismatch expected actual =>
    have h : FirstWord "Couldn't" "Couldn't match expected type '" := ⟨by decide, by decide⟩
    exact (((h.append _).append _).append _).append _
  | notFunction type =>
    have h : FirstWord "Tried" "Tried to apply to non function type: '" := ⟨by decide, by decide⟩
    exact (h.append _).append _
  | notInScope name =>
    have h : FirstWord "Variable" "Variable not in scope: " := ⟨by decide, by decide⟩
    exact h.append _
  | notComparable type =>
    have h : FirstWord "Cannot" "Cannot compare values of function type: '" :=
      ⟨by decide, by decide⟩
    exact (h.append _).append _

theorem DeadEnd.firstWord_message {d : DeadEnd} {word : String}
    (h : FirstWord word d.problem.message) : FirstWord word d.message :=
  ((((h.append _).append _).append _).append _).append _

/-- Every problem that a failed parse may report is worded with `I` as its first word. -/
theorem Phrase.firstWord_problem {problem : Problem} (h : problem ∈ expressionReports.flatten) :
    FirstWord "I" problem.message := by
  have hstarts : ∀ problem ∈ expressionReports.flatten,
      "I".toList ++ [' '] <+: problem.message.toList := by decide +kernel
  exact ⟨by decide, hstarts problem h⟩

theorem ParseError.mem_reports {source : String} {error : ParseError}
    (h : Expr.parse source = .error error) :
    ∀ d ∈ error.deadEnds, d.problem ∈ Phrase.expressionReports.flatten := by
  intro d hd
  obtain ⟨report, hmem, row, column, heq⟩ := Phrase.reported_of_read h
  rw [heq, List.mem_map] at hd
  obtain ⟨problem, hproblem, rfl⟩ := hd
  exact List.mem_flatten.mpr ⟨report, hmem, hproblem⟩

/-- The message of a failed parse starts with `I`. -/
theorem ParseError.firstWord_message {source : String} {error : ParseError}
    (h : Expr.parse source = .error error) : FirstWord "I" error.message := by
  obtain ⟨hne, -⟩ := Phrase.read_error h
  obtain ⟨d, others, hcons⟩ := List.exists_cons_of_ne_nil hne
  have hd : d.problem ∈ Phrase.expressionReports.flatten :=
    mem_reports h d (by rw [hcons]; exact List.mem_cons_self)
  rw [ParseError.message, hcons, List.map_cons]
  exact (DeadEnd.firstWord_message (Phrase.firstWord_problem hd)).intercalate "\n"

/-! ## Values -/

theorem isDigit_or_of_mem_repr {n : Int} {a : Char} (h : a ∈ n.repr.toList) :
    a.isDigit = true ∨ a = '-' := by
  rw [Int.repr_eq_if] at h
  split at h
  · exact Or.inl (isDigit_of_mem_repr h)
  · rw [String.toList_append, List.mem_append] at h
    rcases h with h | h
    · exact Or.inr (List.mem_singleton.mp h)
    · exact Or.inl (isDigit_of_mem_repr h)

/-- Digits tell the number that they spell, as they are read back to it. -/
theorem eq_of_repr_eq {m n : Nat} (h : m.repr = n.repr) : m = n := by
  have hdigits : Nat.toDigits 10 m = Nat.toDigits 10 n := by
    rw [← Nat.toList_repr, ← Nat.toList_repr, h]
  have hread := congrArg (Nat.ofDigitChars 10 · 0) hdigits
  rwa [Nat.ofDigitChars_ten_toDigits, Nat.ofDigitChars_ten_toDigits] at hread

/-- The sign and the digits tell the integer that they spell. -/
theorem int_eq_of_repr_eq {m n : Int} (h : m.repr = n.repr) : m = n := by
  have hsign : ∀ i j : Nat, i.repr ≠ "-" ++ j.repr := by
    intro i j heq
    have hmem : '-' ∈ i.repr.toList := by
      rw [heq, String.toList_append]
      exact List.mem_cons_self
    exact not_mem_repr (by decide) i hmem
  match m, n with
  | .ofNat i, .ofNat j => exact congrArg Int.ofNat (eq_of_repr_eq h)
  | .ofNat i, .negSucc j => exact absurd h (hsign i j.succ)
  | .negSucc i, .ofNat j => exact absurd h.symm (hsign j i.succ)
  | .negSucc i, .negSucc j =>
    have hdigits := eq_of_repr_eq ((String.append_right_inj "-").mp h)
    exact congrArg Int.negSucc (Nat.succ.inj hdigits)

/-- A number is not spelled with any other character than digits and the sign. -/
theorem repr_ne {n : Int} {text : String} (a : Char) (hmem : a ∈ text.toList)
    (hdigit : a.isDigit = false := by decide) (hsign : a ≠ '-' := by decide) :
    n.repr ≠ text := by
  rintro rfl
  rcases isDigit_or_of_mem_repr hmem with h | h
  · rw [hdigit] at h
    cases h
  · exact hsign h

/-- The text of a value is one word. -/
theorem Value.not_mem_text (value : Value) : ' ' ∉ value.text.toList := by
  match value with
  | .lit (.int n) => exact fun h => absurd rfl (repr_ne ' ' h)
  | .lit (.bool true) => decide
  | .lit (.bool false) => decide
  | .closure _ _ _ => exact (by decide : ' ' ∉ "<<closure>>".toList)

/-- The first words of messages. -/
def openings : List String := ["I", "Couldn't", "Tried", "Variable", "Cannot"]

theorem TypeError.opening_mem (error : TypeError) : error.opening ∈ openings := by
  cases error <;> simp [opening, openings]

theorem TypeError.opening_ne (error : TypeError) : error.opening ≠ "I" := by
  cases error <;> simp [opening]

/-- No value looks like the first word of a message. -/
theorem Value.text_not_mem_openings (value : Value) : value.text ∉ openings := by
  match value with
  | .lit (.int n) =>
    simp only [openings, List.mem_cons, List.not_mem_nil, or_false, not_or]
    exact ⟨repr_ne 'I' (by decide), repr_ne 'C' (by decide), repr_ne 'T' (by decide),
      repr_ne 'V' (by decide), repr_ne 'C' (by decide)⟩
  | .lit (.bool true) => decide
  | .lit (.bool false) => decide
  | .closure _ _ _ => exact (by decide : "<<closure>>" ∉ openings)

theorem Value.text_ne (value : Value) (word : String) (h : word ∈ openings) : value.text ≠ word :=
  fun heq => value.text_not_mem_openings (heq ▸ h)

/-- The line of a result starts with the text of the value. -/
theorem firstWord_resultLine (value : Value) (type : Ty) :
    FirstWord value.text (resultLine value type) := by
  have h : FirstWord value.text (value.text ++ " : ") := by
    refine ⟨value.not_mem_text, ?_⟩
    rw [String.toList_append, List.prefix_append_right_inj]
    decide
  exact h.append type.text

/-! ## Types -/

/-- **The text of a type tells the type.** -/
theorem Ty.text_inj {type type' : Ty} (h : type.text = type'.text) : type = type' := by
  have hread := type.parse_eq_ok_of_text
  rw [h, type'.parse_eq_ok_of_text] at hread
  exact (Except.ok.inj hread).symm

theorem Ty.not_mem_text (type : Ty) : '\x27' ∉ type.text.toList := by
  induction type with
  | int => decide
  | bool => decide
  | arrow source target ihs iht =>
    rw [Ty.text]
    split <;> simp [ihs, iht]

/-! ## Messages -/

/-- **The message of a type error tells the error.** -/
theorem TypeError.message_inj {error error' : TypeError} (h : error.message = error'.message) :
    error = error' := by
  have hword : error.opening = error'.opening :=
    error.firstWord_message.unique (h ▸ error'.firstWord_message)
  cases error with
  | mismatch expected actual =>
    cases error' with
    | mismatch expected' actual' =>
      -- The wording has apostrophes in front of the types as well, so only the last one will do.
      obtain ⟨hexpected, hactual⟩ := append_mark_inj '\x27' (by decide) actual.not_mem_text
        actual'.not_mem_text ((String.append_left_inj _).mp h)
      rw [Ty.text_inj ((String.append_right_inj _).mp hexpected), Ty.text_inj hactual]
    | _ => simp [opening] at hword
  | notFunction type =>
    cases error' with
    | notFunction type' =>
      rw [Ty.text_inj ((String.append_right_inj _).mp ((String.append_left_inj _).mp h))]
    | _ => simp [opening] at hword
  | notInScope name =>
    cases error' with
    | notInScope name' =>
      rw [(String.append_right_inj _).mp h]
    | _ => simp [opening] at hword
  | notComparable type =>
    cases error' with
    | notComparable type' =>
      rw [Ty.text_inj ((String.append_right_inj _).mp ((String.append_left_inj _).mp h))]
    | _ => simp [opening] at hword

/-- The line of a dead end tells its place and how its problem is worded. -/
theorem DeadEnd.message_inj {d d' : DeadEnd} (h : d.message = d'.message) :
    d.problem.message = d'.problem.message ∧ d.row = d'.row ∧ d.column = d'.column := by
  simp only [message, String.append_left_inj] at h
  have hcolon := not_mem_repr (by decide : ':'.isDigit = false)
  have hopening := not_mem_repr (by decide : '('.isDigit = false)
  obtain ⟨h, hcolumn⟩ := append_mark_inj ':' (by decide) (hcolon _) (hcolon _) h
  obtain ⟨h, hrow⟩ := append_mark_inj '(' (by decide) (hopening _) (hopening _) h
  exact ⟨h, eq_of_repr_eq hrow, eq_of_repr_eq hcolumn⟩

/-- Problems that can be reported are told apart by their wordings. -/
theorem Phrase.eq_of_message {problem problem' : Problem}
    (h : problem ∈ expressionReports.flatten) (h' : problem' ∈ expressionReports.flatten)
    (heq : problem.message = problem'.message) : problem = problem' := by
  have hinj : ∀ p ∈ expressionReports.flatten, ∀ q ∈ expressionReports.flatten,
      p.message = q.message → p = q := by decide +kernel
  exact hinj problem h problem' h' heq

theorem DeadEnd.eq_of_map_message {l l' : List DeadEnd}
    (hl : ∀ d ∈ l, d.problem ∈ Phrase.expressionReports.flatten)
    (hl' : ∀ d ∈ l', d.problem ∈ Phrase.expressionReports.flatten)
    (h : l.map message = l'.map message) : l = l' := by
  induction l generalizing l' with
  | nil => exact (List.map_eq_nil_iff.mp h.symm).symm
  | cons d l ih =>
    cases l' with
    | nil => cases h
    | cons d' l' =>
      rw [List.forall_mem_cons] at hl hl'
      obtain ⟨hd, htail⟩ := List.cons.inj h
      obtain ⟨hproblem, hrow, hcolumn⟩ := message_inj hd
      have hsame : d = d' := by
        obtain ⟨row, column, problem⟩ := d
        obtain ⟨row', column', problem'⟩ := d'
        rw [DeadEnd.mk.injEq]
        exact ⟨hrow, hcolumn, Phrase.eq_of_message hl.1 hl'.1 hproblem⟩
      rw [hsame, ih hl.2 hl'.2 htail]

/-- **The message of a failed parse tells its dead ends.** -/
theorem ParseError.eq_of_message {source source' : String} {error error' : ParseError}
    (h : Expr.parse source = .error error) (h' : Expr.parse source' = .error error')
    (heq : error.message = error'.message) : error = error' := by
  obtain ⟨-, -, hlines⟩ := Phrase.read_error h
  obtain ⟨-, -, hlines'⟩ := Phrase.read_error h'
  rw [heq, hlines'] at hlines
  have hdeadEnds := DeadEnd.eq_of_map_message (mem_reports h') (mem_reports h) hlines
  cases error
  cases error'
  cases hdeadEnds
  rfl

/-! ## Outcomes -/

/-- The same literal or any two closures, with the same type, or the same error of a stage. -/
inductive SameOutcome : Except Error (Value × Ty) → Except Error (Value × Ty) → Prop
  | literal (literal : Literal) (type : Ty) :
    SameOutcome (.ok (.lit literal, type)) (.ok (.lit literal, type))
  | closure (type : Ty) {param param' : String} {body body' : Expr} {scope scope' : Scope} :
    SameOutcome (.ok (.closure param body scope, type)) (.ok (.closure param' body' scope', type))
  | error (error : Error) : SameOutcome (.error error) (.error error)

/-- The text of a value tells the value among those of its type, but for closures. -/
theorem Ty.Holds.sameOutcome {type : Ty} {value value' : Value} (hv : type.Holds value)
    (hv' : type.Holds value') (h : value.text = value'.text) :
    SameOutcome (.ok (value, type)) (.ok (value', type)) := by
  cases type with
  | int =>
    obtain ⟨n, rfl⟩ := hv
    obtain ⟨m, rfl⟩ := hv'
    obtain rfl : n = m := Int64.toInt_inj.mp (int_eq_of_repr_eq h)
    exact .literal _ .int
  | bool =>
    obtain ⟨a, rfl⟩ := hv
    obtain ⟨b, rfl⟩ := hv'
    obtain rfl : a = b := by
      revert a b
      decide
    exact .literal _ .bool
  | arrow source target =>
    obtain ⟨param, body, scope, rfl, -⟩ := hv
    obtain ⟨param', body', scope', rfl, -⟩ := hv'
    exact .closure _

/-- A line shows an outcome that a text can have. -/
inductive Shows : String → Except Error (Value × Ty) → Prop
  | value {value : Value} {type : Ty} :
    type.Holds value → Shows (resultLine value type) (.ok (value, type))
  | parse {source : String} {error : ParseError} :
    Expr.parse source = .error error → Shows error.message (.error (.parse error))
  | type (error : TypeError) : Shows error.message (.error (.type error))

/-- The line that is answered shows the outcome. -/
theorem shows_run (source : String) : Shows (run source) (interpret source) := by
  unfold run
  cases hp : Expr.parse source with
  | error error =>
    rw [interpret_of_parse_error hp]
    exact .parse hp
  | ok e =>
    cases hc : e.check .empty with
    | error error =>
      rw [interpret_of_check_error hp hc]
      exact .type error
    | ok type =>
      obtain ⟨value, hv, -, hi⟩ := interpret_of_check hp hc
      rw [hi]
      exact .value hv

/-- The first word of the line of an outcome; no evaluation fails, so its failure has none. -/
def opening : Except Error (Value × Ty) → String
  | .ok (value, _) => value.text
  | .error (.parse _) => "I"
  | .error (.type error) => error.opening
  | .error (.runtime _) => ""

namespace Shows

variable {line line' : String} {outcome outcome' : Except Error (Value × Ty)}

/-- Outcomes that are the same are shown by one line. -/
theorem line_eq (h : Shows line outcome) (h' : Shows line' outcome')
    (hsame : SameOutcome outcome outcome') : line = line' := by
  cases hsame with
  | literal literal type =>
    cases h
    cases h'
    rfl
  | closure type =>
    cases h
    cases h'
    rfl
  | error error =>
    cases h <;> cases h' <;> rfl

theorem firstWord (h : Shows line outcome) : FirstWord (opening outcome) line := by
  cases h with
  | value hv => exact firstWord_resultLine _ _
  | parse hp => exact ParseError.firstWord_message hp
  | type error => exact error.firstWord_message

/-- One line shows only outcomes that are the same. -/
theorem sameOutcome (h : Shows line outcome) (h' : Shows line' outcome') (heq : line = line') :
    SameOutcome outcome outcome' := by
  have hword : opening outcome = opening outcome' := h.firstWord.unique (heq ▸ h'.firstWord)
  cases h with
  | @value value type hv =>
    cases h' with
    | @value value' type' hv' =>
      rw [resultLine, resultLine, show value.text = value'.text from hword,
        String.append_right_inj] at heq
      obtain rfl : type = type' := Ty.text_inj heq
      exact hv.sameOutcome hv' hword
    | parse hp' => exact absurd hword (value.text_ne "I" (by decide))
    | type error' => exact absurd hword (value.text_ne _ error'.opening_mem)
  | parse hp =>
    cases h' with
    | @value value' _ hv' => exact absurd hword.symm (value'.text_ne "I" (by decide))
    | parse hp' =>
      rw [ParseError.eq_of_message hp hp' heq]
      exact .error _
    | type error' => exact absurd hword.symm error'.opening_ne
  | type error =>
    cases h' with
    | @value value' _ hv' => exact absurd hword.symm (value'.text_ne _ error.opening_mem)
    | parse hp' => exact absurd hword error.opening_ne
    | type error' =>
      rw [TypeError.message_inj heq]
      exact .error _

end Shows

/--
**A line tells its outcome.** Two texts give the same line exactly if both give the same literal or
both a closure, with the same type, or both fail in the same stage with the same error.
-/
theorem run_eq_run_iff (source source' : String) :
    run source = run source' ↔ SameOutcome (interpret source) (interpret source') := by
  have h := shows_run source
  have h' := shows_run source'
  exact ⟨h.sameOutcome h', h.line_eq h'⟩

end TypedLambda
