import RecordLens.Literal.Grammar
import RecordLens.Proofs.Literal.Names

/-! How literals are written, apart from any way to read them. Rows of lexemes derive types and
values within a number of nested brackets. The trees that are derived have no places: every span
in them is the default one, and `unplaced` takes a tree that was read to its form without places. -/

namespace RecordLens

section

variable [Alphabet]

/-- The text splits into these lexemes, up to the end of input. -/
def Token.Lexes (text : String) (ls : List Lexeme) : Prop :=
  ∃ tokens, scan text = .ok tokens ∧ tokens.map lexeme = ls ++ [.endOfInput]

theorem Token.Lexes.scans {text : String} {ls : List Lexeme} (h : Lexes text ls) :
    Scans [] text.toList ls := by
  obtain ⟨tokens, hscan, hls⟩ := h
  obtain ⟨ms, hms, hscans⟩ := scans_of_scanFrom hscan
  obtain rfl := List.append_cancel_right (hms.symm.trans hls)
  exact hscans

theorem Token.lexes_iff_scans {text : String} {ls : List Lexeme} :
    Lexes text ls ↔ Scans [] text.toList ls :=
  ⟨Lexes.scans, fun h => h.scanFrom_eq_ok .start⟩

theorem Token.Lexes.unique {text : String} {ls ms : List Lexeme} (h : Lexes text ls)
    (h' : Lexes text ms) : ls = ms := by
  obtain ⟨tokens, hscan, hls⟩ := h
  obtain ⟨others, hscan', hms⟩ := h'
  obtain rfl := Except.ok.inj (hscan.symm.trans hscan')
  exact List.append_cancel_right (hls.symm.trans hms)

end

namespace FieldName

/-- The lexeme names a field. A position has no leading zeros and fits in 32 bits. -/
inductive WrittenAs : FieldName → Lexeme → Prop
  | label (s : String) : WrittenAs (.label s) (.identifier s)
  | position {digits : String} (hzero : digits.toList.head? ≠ some '0')
      (hbound : digitsValue digits.toList < positionBound) :
      WrittenAs (.position (digitsValue digits.toList)) (.integer digits)

/-- The names may stand in one pair of braces: labels alone, or positions alone, of which one
repeats unless they are those from one on. -/
def Admissible (names : List FieldName) : Prop :=
  (∀ n ∈ names, n.isPosition = false) ∨
  (∀ n ∈ names, n.isPosition = true) ∧
    (names.Nodup → names.Perm ((List.range' 1 names.length).map .position))

theorem WrittenAs.ne_closeBrace {n : FieldName} {l : Lexeme} (h : n.WrittenAs l) :
    l ≠ .closeBrace := by
  cases h <;> exact nofun

theorem ofDigits_eq_ok_iff {digits : String} {span : Span} {n : FieldName} :
    ofDigits digits span = .ok n ↔ n.WrittenAs (.integer digits) := by
  constructor
  · intro h
    unfold ofDigits at h
    by_cases hzero : digits.toList.head? = some '0'
    · simp [hzero] at h
    · by_cases hbound : digitsValue digits.toList < positionBound
      · simp only [hzero, hbound, if_true, if_false, Except.ok.injEq] at h
        exact h ▸ .position hzero hbound
      · simp [hzero, hbound] at h
  · rintro ⟨⟩
    next hzero hbound => simp [ofDigits, hzero, hbound]

theorem WrittenAs.text_eq_digits {n : FieldName} {digits : String}
    (h : n.WrittenAs (.integer digits)) (hdigits : IsDigits digits.toList) :
    n.text.toList = digits.toList := by
  cases h with
  | position hzero _ => rw [text, toList_toString_nat, toDigits_digitsValue hdigits hzero]

end FieldName

namespace FieldExpr

variable {α : Type}

/-- The names of a literal pass if and only if they may stand in one pair of braces. -/
theorem checkNames_eq_ok_iff_admissible {fields : List (FieldExpr α)} {span : Span} :
    checkNames fields span = .ok () ↔ FieldName.Admissible (fields.map name) := by
  have hpositions : (∀ n ∈ List.range' 1 (fields.map name).length, .position n ∈ fields.map name) ↔
      (fields.map name).Perm ((List.range' 1 (fields.map name).length).map .position) := by
    refine ⟨fun h => (FieldName.perm_positions h).symm, fun h n hn => ?_⟩
    exact h.mem_iff.2 (List.mem_map_of_mem hn)
  rw [checkNames_eq_ok_iff, FieldName.Admissible, ← hpositions, List.length_map]
  simp only [List.forall_mem_map]

def unplaced (f : α → α) (x : FieldExpr α) : FieldExpr α := ⟨x.name, default, f x.item⟩

@[simp] theorem unplaced_name (f : α → α) (x : FieldExpr α) : (x.unplaced f).name = x.name := rfl

@[simp] theorem map_name_unplaced (f : α → α) (xs : List (FieldExpr α)) :
    (xs.map (unplaced f)).map name = xs.map name := by
  simp [Function.comp_def]

theorem map_unplaced_positions (f : α → α) (span : α → Span) (first : Nat) (xs : List α) :
    (positions span first xs).map (unplaced f) = positions (fun _ => default) first (xs.map f) := by
  induction xs generalizing first with
  | nil => rfl
  | cons x xs ih => simp only [positions, List.map_cons, ih, unplaced]

end FieldExpr

theorem Reader.named_eq_ok_iff {α π : Type} {frames : List (Frame α π)} {b : Bracket π}
    {done : List (FieldExpr α)} {t : Token} {r : Reader α π} :
    named frames b done t = .ok r ↔
      ∃ name, name.WrittenAs t.lexeme ∧ r = ⟨frames, .separator b done name t.span⟩ := by
  unfold named
  split
  · next label hlabel =>
    rw [hlabel]
    constructor
    · intro h
      exact ⟨_, .label label, (Except.ok.inj h).symm⟩
    · rintro ⟨_, ⟨⟩, rfl⟩
      rfl
  · next digits hdigits =>
    rw [hdigits]
    constructor
    · intro h
      split at h
      · simp at h
      · next name hname =>
        exact ⟨name, FieldName.ofDigits_eq_ok_iff.1 hname, (Except.ok.inj h).symm⟩
    · rintro ⟨name, hname, rfl⟩
      rw [FieldName.ofDigits_eq_ok_iff.2 hname]
  · next hlabel hdigits =>
    constructor
    · intro h
      simp at h
    · rintro ⟨name, hname, -⟩
      cases hl : t.lexeme <;> simp_all <;> cases hname

namespace Literal

structure Phrase (α : Type) where
  lexemes : List Lexeme
  item : α

/-- A name and an item, as they stand in braces. -/
structure Clause (α : Type) extends Phrase α where
  sign : Lexeme
  name : FieldName

variable {α : Type}

namespace Clause

def field (c : Clause α) : FieldExpr α := ⟨c.name, default, c.item⟩

def row (separator : Lexeme) (c : Clause α) : List Lexeme := c.sign :: separator :: c.lexemes

end Clause

def commas (rows : List (List Lexeme)) : List Lexeme := [Lexeme.comma].intercalate rows

def inBraces (ls : List Lexeme) : List Lexeme := .openBrace :: (ls ++ [.closeBrace])

def inParens (ls : List Lexeme) : List Lexeme := .openParen :: (ls ++ [.closeParen])

@[simp] theorem commas_nil : commas [] = [] := rfl

theorem commas_cons (row : List Lexeme) (rows : List (List Lexeme)) :
    commas (row :: rows) = row ++ rows.flatMap (Lexeme.comma :: ·) := by
  induction rows generalizing row with
  | nil => simp [commas]
  | cons next rows ih =>
    rw [commas, List.intercalate_cons_cons, ← commas, ih]
    simp

theorem commas_concat (rows : List (List Lexeme)) (row : List Lexeme) :
    commas (rows ++ [row]) = rows.flatMap (· ++ [Lexeme.comma]) ++ row := by
  induction rows with
  | nil => simp [commas]
  | cons first rows ih =>
    have hne : rows ++ [row] ≠ [] := by simp
    rw [List.cons_append, commas, List.intercalate_cons_of_ne_nil hne, ← commas, ih]
    simp

/-- What stands in brackets: fields in braces, an item in parentheses, which stands for itself, or
several, which are a record by position. -/
inductive Bracketed (separator : Lexeme) (record : RecordExpr α → α)
    (item : List Lexeme → α → Prop) : List Lexeme → α → Prop
  | braces (clauses : List (Clause α)) (hsigns : ∀ c ∈ clauses, c.name.WrittenAs c.sign)
      (hnames : FieldName.Admissible (clauses.map Clause.name))
      (h : ∀ c ∈ clauses, item c.lexemes c.item) :
      Bracketed separator record item (inBraces (commas (clauses.map (Clause.row separator))))
        (record ⟨clauses.map Clause.field, default⟩)
  | parentheses {ls : List Lexeme} {x : α} (h : item ls x) :
      Bracketed separator record item (inParens ls) x
  | tuple (phrases : List (Phrase α)) (hlength : 1 < phrases.length)
      (h : ∀ p ∈ phrases, item p.lexemes p.item) :
      Bracketed separator record item (inParens (commas (phrases.map Phrase.lexemes)))
        (record ⟨FieldExpr.positions (fun _ => default) 1 (phrases.map Phrase.item), default⟩)

end Literal

open Literal (Phrase)

namespace TypeExpr

mutual

def unplaced : TypeExpr → TypeExpr
  | .named name args _ => .named name (unplacedArgs args) default
  | .record ⟨fields, _⟩ => .record ⟨unplacedFields fields, default⟩

def unplacedArgs : List TypeExpr → List TypeExpr
  | [] => []
  | arg :: rest => unplaced arg :: unplacedArgs rest

def unplacedFields : List (FieldExpr TypeExpr) → List (FieldExpr TypeExpr)
  | [] => []
  | ⟨name, _, item⟩ :: rest => ⟨name, default, unplaced item⟩ :: unplacedFields rest

end

@[simp] theorem unplaced_named (name : String) (args : List TypeExpr) (span : Span) :
    (named name args span).unplaced = .named name (args.map unplaced) default := by
  have h : unplacedArgs args = args.map unplaced := by
    induction args with
    | nil => rfl
    | cons arg rest ih => rw [unplacedArgs, List.map_cons, ih]
  rw [unplaced, h]

@[simp] theorem unplaced_record (fields : List (FieldExpr TypeExpr)) (span : Span) :
    (record ⟨fields, span⟩).unplaced =
      .record ⟨fields.map (FieldExpr.unplaced unplaced), default⟩ := by
  have h : unplacedFields fields = fields.map (FieldExpr.unplaced unplaced) := by
    induction fields with
    | nil => rfl
    | cons f rest ih => rw [unplacedFields, List.map_cons, ih]; rfl
  rw [unplaced, h]

/-- A type that may be an argument: a bare name, or a bracketed type. -/
inductive Argument (bracketed : List Lexeme → TypeExpr → Prop) : List Lexeme → TypeExpr → Prop
  | name (s : String) : Argument bracketed [.identifier s] (.named s [] default)
  | bracketed {ls : List Lexeme} {e : TypeExpr} (h : bracketed ls e) : Argument bracketed ls e

/-- Any type: a name with arguments, or a bracketed type. -/
inductive Applied (bracketed : List Lexeme → TypeExpr → Prop) : List Lexeme → TypeExpr → Prop
  | named (s : String) (args : List (Phrase TypeExpr))
      (h : ∀ a ∈ args, Argument bracketed a.lexemes a.item) :
      Applied bracketed (.identifier s :: args.flatMap Phrase.lexemes)
        (.named s (args.map Phrase.item) default)
  | bracketed {ls : List Lexeme} {e : TypeExpr} (h : bracketed ls e) : Applied bracketed ls e

/-- The lexemes are a type in brackets, with brackets nested at most that deep. -/
def Bracketed : Nat → List Lexeme → TypeExpr → Prop
  | 0 => fun _ _ => False
  | n + 1 => Literal.Bracketed .doubleColon .record (Applied (Bracketed n))

def Written (n : Nat) : List Lexeme → TypeExpr → Prop := Applied (Bracketed n)

end TypeExpr

/-- The lexemes are a scalar. A minus may stand before a number, and integers fit in 64 bits. -/
inductive Scalar.Written : List Lexeme → Scalar → Prop
  | integer {digits : String} {i : Int64} (h : i.toInt = digitsValue digits.toList) :
      Written [.integer digits] (.int i)
  | negativeInteger {digits : String} {i : Int64} (h : i.toInt = -digitsValue digits.toList) :
      Written [.minus, .integer digits] (.int i)
  | float (x : Binary64) : Written [.float x] (.float x)
  | negativeFloat (x : Binary64) : Written [.minus, .float x] (.float x.negate)
  | string (s : String) : Written [.string s] (.string s)
  | character (c : Char) : Written [.character c] (.char c)
  | true : Written [.identifier "True"] (.bool true)
  | false : Written [.identifier "False"] (.bool false)

namespace Expr

mutual

def unplaced : Expr → Expr
  | .scalar value _ => .scalar value default
  | .record ⟨fields, _⟩ => .record ⟨unplacedFields fields, default⟩

def unplacedFields : List (FieldExpr Expr) → List (FieldExpr Expr)
  | [] => []
  | ⟨name, _, item⟩ :: rest => ⟨name, default, unplaced item⟩ :: unplacedFields rest

end

@[simp] theorem unplaced_scalar (value : Scalar) (span : Span) :
    (scalar value span).unplaced = .scalar value default := by rw [unplaced]

@[simp] theorem unplaced_record (fields : List (FieldExpr Expr)) (span : Span) :
    (record ⟨fields, span⟩).unplaced =
      .record ⟨fields.map (FieldExpr.unplaced unplaced), default⟩ := by
  have h : unplacedFields fields = fields.map (FieldExpr.unplaced unplaced) := by
    induction fields with
    | nil => rfl
    | cons f rest ih => rw [unplacedFields, List.map_cons, ih]; rfl
  rw [unplaced, h]

/-- Any value: a scalar, or a bracketed value. -/
inductive Plain (bracketed : List Lexeme → Expr → Prop) : List Lexeme → Expr → Prop
  | scalar {ls : List Lexeme} {s : Scalar} (h : s.Written ls) :
      Plain bracketed ls (.scalar s default)
  | bracketed {ls : List Lexeme} {e : Expr} (h : bracketed ls e) : Plain bracketed ls e

def Bracketed : Nat → List Lexeme → Expr → Prop
  | 0 => fun _ _ => False
  | n + 1 => Literal.Bracketed .equals .record (Plain (Bracketed n))

def Written (n : Nat) : List Lexeme → Expr → Prop := Plain (Bracketed n)

end Expr

end RecordLens
