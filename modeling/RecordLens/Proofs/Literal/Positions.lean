import RecordLens.Proofs.Literal.Recognition
import RecordLens.Proofs.Token.Breaks

/-! Texts put together. What is read of some texts is read of them again where they stand in
parentheses, with commas between them, or in braces, each behind a name. The brackets and commas
keep the lexemes of one text from going on into the next, and one more bracket is enough room. -/

namespace RecordLens

open Literal (Phrase Clause inBraces inParens)

namespace Literal

def tupleText (texts : List String) : String := "(" ++ Text.commas texts ++ ")"

def fieldText (f : Field String) : String := f.name.text ++ " = " ++ f.value

def recordText (fields : List (Field String)) : String :=
  "\x7b" ++ Text.commas (fields.map fieldText) ++ "\x7d"

end Literal

section

variable [Alphabet]

theorem FieldName.Legible.writtenAs {n : FieldName} (h : n.Legible) : n.WrittenAs n.lexeme := by
  cases n with
  | label s => exact .label s
  | position n => exact ofDigits_eq_ok_iff.1 (ofDigits_toString h.1 h.2 default)

namespace Token

variable {rest tail : List Char} {ls : List Lexeme}

theorem Scans.punctuation {c : Char} {l : Lexeme} (h : Lexeme.punctuation? c = some l)
    (hs : Scans rest tail ls) : Scans rest (c :: tail) (l :: ls) := by
  obtain ⟨hc, htake⟩ := Lexeme.take_punctuation h tail
  exact .lexeme hc htake hs

theorem detached_of_punctuation {c : Char} (h : c ∈ ['{', '}', '(', ')', ',', ' ']) :
    Text.Detached (c :: rest) := by
  refine Text.detached_cons ?_
  simp only [List.mem_cons, List.not_mem_nil, or_false] at h
  rcases h with rfl | rfl | rfl | rfl | rfl | rfl <;>
    exact ⟨Text.isSubsequent_of_ascii (by decide), by decide⟩

theorem scans_commas {texts : List String} {rows : List (List Lexeme)}
    (h : List.Forall₂ Lexes texts rows) (hrest : Text.Detached rest) :
    Scans rest ((Text.commas texts).toList ++ rest) (Literal.commas rows) := by
  induction h with
  | nil => exact .done
  | @cons text ls texts rows htext hmore ih =>
    cases hmore with
    | nil =>
      rw [Literal.commas_cons, List.flatMap_nil, List.append_nil]
      exact htext.scans.extend hrest
    | @cons next ms texts rows hnext hmore =>
      have hsplit : (Text.commas (text :: next :: texts)).toList ++ rest =
          text.toList ++ (',' :: ' ' :: ((Text.commas (next :: texts)).toList ++ rest)) := by
        simp [Text.commas, Text.joined_cons_cons]
      have hrows : Literal.commas (ls :: ms :: rows) =
          ls ++ (.comma :: Literal.commas (ms :: rows)) := by
        simp [Literal.commas_cons]
      rw [hsplit, hrows]
      have hcomma := Scans.punctuation (c := ',') rfl (.blank (c := ' ') (by decide) ih)
      exact (htext.scans.extend (detached_of_punctuation (by decide))).append hcomma

theorem scans_enclosed {texts : List String} {rows : List (List Lexeme)}
    (h : List.Forall₂ Lexes texts rows) {a b : Char} {l m : Lexeme}
    (ha : Lexeme.punctuation? a = some l) (hb : Lexeme.punctuation? b = some m)
    (hclosing : b ∈ ['{', '}', '(', ')', ',', ' ']) :
    Scans [] (a :: ((Text.commas texts).toList ++ [b])) (l :: (Literal.commas rows ++ [m])) :=
  .punctuation ha ((scans_commas h (detached_of_punctuation hclosing)).append
    (.punctuation hb .done))

theorem lexes_tupleText {texts : List String} {rows : List (List Lexeme)}
    (h : List.Forall₂ Lexes texts rows) :
    Lexes (Literal.tupleText texts) (inParens (Literal.commas rows)) := by
  rw [lexes_iff_scans, Literal.tupleText]
  simpa [inParens] using scans_enclosed h (a := '(') (b := ')') rfl rfl (by decide)

theorem lexes_named {n : FieldName} (hn : n.Legible) {text : String}
    (htext : text.toList = n.text.toList ++ ' ' :: tail) (h : Scans [] (' ' :: tail) ls) :
    Lexes text (n.lexeme :: ls) := by
  have hdelimited : Text.Delimited (' ' :: tail) := Text.delimited_of_ascii (by decide)
  have htake := hn.take_text hdelimited
  obtain ⟨c, cs, hcs, hc⟩ := hn.text_eq_cons
  rw [lexes_iff_scans, htext]
  rw [hcs] at htake ⊢
  exact .lexeme hc htake h

theorem lexes_fieldText {f : Field String} (hn : f.name.Legible) {ls : List Lexeme}
    (h : Lexes f.value ls) :
    Lexes (Literal.fieldText f) (f.name.lexeme :: .equals :: ls) := by
  have hequals : Scans [] (' ' :: '=' :: ' ' :: f.value.toList) (.equals :: ls) :=
    .blank (by decide) (.punctuation rfl (.blank (by decide) h.scans))
  exact lexes_named hn (by simp [Literal.fieldText]) hequals

theorem lexes_braces {texts : List String} {rows : List (List Lexeme)}
    (h : List.Forall₂ Lexes texts rows) :
    Lexes ("\x7b" ++ Text.commas texts ++ "\x7d") (inBraces (Literal.commas rows)) := by
  rw [lexes_iff_scans]
  simpa [inBraces] using scans_enclosed h (a := '{') (b := '}') rfl rfl (by decide)

theorem lexes_recordText {fields : List (Field String)} {rows : List (List Lexeme)}
    (h : List.Forall₂ (fun f row => Lexes (Literal.fieldText f) row) fields rows) :
    Lexes (Literal.recordText fields) (inBraces (Literal.commas rows)) :=
  lexes_braces (List.forall₂_map_left_iff.2 h)

end Token

end

def FieldExpr.ofField {α : Type} (f : Field α) : FieldExpr α := ⟨f.name, default, f.value⟩

theorem FieldExpr.positions_eq_map {α : Type} (first : Nat) (xs : List α) :
    positions (fun _ => default) first xs = (Field.positions first xs).map ofField := by
  induction xs generalizing first with
  | nil => rfl
  | cons x xs ih => rw [positions, ih]; rfl

namespace Expr

def ofFields (fields : List (Field Expr)) : Expr :=
  .record ⟨fields.map FieldExpr.ofField, default⟩

theorem unplaced_ofFields (fields : List (Field Expr)) :
    (ofFields fields).unplaced = ofFields (fields.map (Field.map unplaced)) := by
  simp [ofFields, Function.comp_def, FieldExpr.ofField, FieldExpr.unplaced]

variable {limit : Nat}

variable [Alphabet]

theorem exists_written_of_read {text : String} {e : Expr} (h : Expr.read limit text = .ok e) :
    ∃ ls, Token.Lexes text ls ∧ Written limit ls e.unplaced :=
  map_unplaced_read_iff.1 (congrArg (Except.map unplaced) h)

theorem exists_read_of_written {text : String} {ls : List Lexeme} {e : Expr}
    (htext : Token.Lexes text ls) (h : Written limit ls e) :
    ∃ d, Expr.read limit text = .ok d ∧ d.unplaced = e :=
  exists_of_map_eq_ok (map_unplaced_read_iff.2 ⟨ls, htext, h⟩)

theorem exists_phrases {texts : List String} {es : List Expr}
    (h : List.Forall₂ (fun text e => Expr.read limit text = .ok e) texts es) :
    ∃ phrases : List (Phrase Expr), phrases.map Phrase.item = es.map unplaced ∧
      (∀ p ∈ phrases, Written limit p.lexemes p.item) ∧
      List.Forall₂ Token.Lexes texts (phrases.map Phrase.lexemes) := by
  induction h with
  | nil => exact ⟨[], rfl, by simp, .nil⟩
  | @cons text e texts es hread _ ih =>
    obtain ⟨ls, htext, hwritten⟩ := exists_written_of_read hread
    obtain ⟨phrases, hitems, hall, hrows⟩ := ih
    exact ⟨⟨ls, e.unplaced⟩ :: phrases, by simp [hitems], List.forall_mem_cons.2 ⟨hwritten, hall⟩,
      .cons htext hrows⟩

theorem exists_clauses {fields : List (Field String)} {xs : List (Field Expr)}
    (h : List.Forall₂ (fun f x => x.name = f.name ∧ Expr.read limit f.value = .ok x.value)
      fields xs) (hnames : ∀ f ∈ fields, f.name.Legible) :
    ∃ clauses : List (Clause Expr),
      clauses.map Clause.field = (xs.map (Field.map unplaced)).map FieldExpr.ofField ∧
      (∀ c ∈ clauses, c.name.WrittenAs c.sign ∧ Written limit c.lexemes c.item) ∧
      List.Forall₂ (fun f row => Token.Lexes (Literal.fieldText f) row) fields
        (clauses.map (Clause.row .equals)) := by
  induction h with
  | nil => exact ⟨[], rfl, by simp, .nil⟩
  | @cons f x fields xs hread _ ih =>
    obtain ⟨hname, hread⟩ := hread
    obtain ⟨hn, hnames⟩ := List.forall_mem_cons.1 hnames
    obtain ⟨ls, htext, hwritten⟩ := exists_written_of_read hread
    obtain ⟨clauses, hfields, hall, hrows⟩ := ih hnames
    let c : Clause Expr := ⟨⟨ls, x.value.unplaced⟩, f.name.lexeme, f.name⟩
    refine ⟨c :: clauses, ?_, List.forall_mem_cons.2 ⟨⟨hn.writtenAs, hwritten⟩, hall⟩,
      .cons (Token.lexes_fieldText hn htext) hrows⟩
    rw [List.map_cons, hfields, List.map_cons, List.map_cons]
    simp [c, Clause.field, FieldExpr.ofField, hname]

/-- Several texts in parentheses are read as the record of their items by position. -/
theorem exists_read_tupleText {texts : List String} {es : List Expr}
    (h : List.Forall₂ (fun text e => Expr.read limit text = .ok e) texts es)
    (hlength : 1 < texts.length) :
    ∃ d, Expr.read (limit + 1) (Literal.tupleText texts) = .ok d ∧
      d.unplaced = (ofFields (Field.positions 1 es)).unplaced := by
  obtain ⟨phrases, hitems, hall, hrows⟩ := exists_phrases h
  have hcount : 1 < phrases.length := by
    have := hrows.length_eq
    rw [List.length_map] at this
    omega
  have hwritten : Written (limit + 1) (inParens (Literal.commas (phrases.map Phrase.lexemes))) _ :=
    .bracketed (.tuple phrases hcount hall)
  obtain ⟨d, hread, hd⟩ := exists_read_of_written (Token.lexes_tupleText hrows) hwritten
  refine ⟨d, hread, ?_⟩
  rw [hd, hitems, unplaced_ofFields, FieldExpr.positions_eq_map, Field.positions_map]
  rfl

/-- Texts in braces are read as the record of their items, if their names may stand there. -/
theorem exists_read_recordText {fields : List (Field String)} {xs : List (Field Expr)}
    (h : List.Forall₂ (fun f x => x.name = f.name ∧ Expr.read limit f.value = .ok x.value)
      fields xs) (hnames : ∀ f ∈ fields, f.name.Legible)
    (hadmissible : FieldName.Admissible (fields.map Field.name)) :
    ∃ d, Expr.read (limit + 1) (Literal.recordText fields) = .ok d ∧
      d.unplaced = (ofFields xs).unplaced := by
  obtain ⟨clauses, hfields, hall, hrows⟩ := exists_clauses h hnames
  have hclauses : clauses.map Clause.name = fields.map Field.name := by
    rw [← Field.names_eq_of_forall₂ h And.left]
    simpa [Function.comp_def, Clause.field, FieldExpr.ofField] using
      congrArg (List.map FieldExpr.name) hfields
  have hwritten : Written (limit + 1)
      (inBraces (Literal.commas (clauses.map (Clause.row .equals)))) _ :=
    .bracketed (.braces clauses (fun c hc => (hall c hc).1) (hclauses ▸ hadmissible)
      fun c hc => (hall c hc).2)
  obtain ⟨d, hread, hd⟩ := exists_read_of_written (Token.lexes_recordText hrows) hwritten
  refine ⟨d, hread, ?_⟩
  rw [hd, hfields, unplaced_ofFields]
  rfl

end Expr

namespace Literal

def byPosition (fields : List (UInt32 × String)) : List (Field String) :=
  fields.map fun f => ⟨.position f.1.toNat, f.2⟩

variable {texts : List String} {fields : List (UInt32 × String)}
  (h : (byPosition fields).Perm (Field.positions 1 texts))

include h

theorem exists_index_of_mem {f : UInt32 × String} (hf : f ∈ fields) :
    ∃ i, texts[i]? = some f.2 ∧ f.1.toNat = i + 1 := by
  have hmem : ⟨.position f.1.toNat, f.2⟩ ∈ Field.positions 1 texts :=
    h.mem_iff.1 (List.mem_map_of_mem hf)
  obtain ⟨i, hi⟩ := List.mem_iff_getElem?.1 hmem
  rw [Field.getElem?_positions, Option.map_eq_some_iff] at hi
  obtain ⟨text, htext, heq⟩ := hi
  obtain ⟨hname, rfl⟩ := Field.mk.inj heq
  exact ⟨i, htext, by rw [← FieldName.position.inj hname, Nat.add_comm]⟩

theorem legible_byPosition [Alphabet] : ∀ f ∈ byPosition fields, f.name.Legible := by
  intro f hf
  obtain ⟨x, hx, rfl⟩ := List.mem_map.1 hf
  obtain ⟨i, -, hi⟩ := exists_index_of_mem h hx
  exact ⟨by omega, x.1.toNat_lt⟩

theorem admissible_byPosition : FieldName.Admissible ((byPosition fields).map Field.name) := by
  have hperm := h.map Field.name
  rw [Field.map_name_positions] at hperm
  have hlength : ((byPosition fields).map Field.name).length = texts.length := by
    simpa using hperm.length_eq
  refine .inr ⟨?_, fun _ => hlength ▸ hperm⟩
  rw [List.forall_mem_map]
  intro f hf
  obtain ⟨x, -, rfl⟩ := List.mem_map.1 hf
  rfl

end Literal

end RecordLens
