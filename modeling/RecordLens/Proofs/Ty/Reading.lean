import RecordLens.Proofs.Literal.Printed
import RecordLens.Proofs.Text.Nesting
import RecordLens.Proofs.Ty.Shape

/-! Printed types read back. The brackets of the printed text nest as the shape says, the reader
needs no more room than that, and what it reads has the shape of the type. -/

namespace RecordLens

open Text (Balanced commas)

namespace Shape

mutual

/-- How deep brackets nest where the shape is printed. -/
def nesting : Shape → Nat
  | .named _ args => argsNesting args
  | .record fields => fieldsNesting fields + 1

def argsNesting : List Shape → Nat
  | [] => 0
  | .named name (arg :: args) :: rest =>
    max (nesting (.named name (arg :: args)) + 1) (argsNesting rest)
  | arg :: rest => max (nesting arg) (argsNesting rest)

def fieldsNesting : List (Field Shape) → Nat
  | [] => 0
  | ⟨_, shape⟩ :: rest => max (nesting shape) (fieldsNesting rest)

end

def argNesting : Shape → Nat
  | .named name (arg :: args) => nesting (.named name (arg :: args)) + 1
  | s => nesting s

theorem nesting_named (name : String) (args : List Shape) :
    (named name args).nesting = (args.map argNesting).foldr max 0 := by
  have h : argsNesting args = (args.map argNesting).foldr max 0 := by
    induction args with
    | nil => rfl
    | cons arg rest ih =>
      rw [List.map_cons, List.foldr_cons, ← ih]
      match arg with
      | .named _ [] => rfl
      | .named _ (_ :: _) => rfl
      | .record _ => rfl
  rw [nesting, h]

theorem nesting_record (fields : List (Field Shape)) :
    (record fields).nesting = (fields.map fun f => f.value.nesting).foldr max 0 + 1 := by
  have h : fieldsNesting fields = (fields.map fun f => f.value.nesting).foldr max 0 := by
    induction fields with
    | nil => rfl
    | cons f rest ih => rw [List.map_cons, List.foldr_cons, ← ih]; rfl
  rw [nesting, h]

end Shape

namespace Ty

/-- Named types and labels are identifiers, and the names of a record may share one. -/
inductive Readable [Alphabet] : Ty → Prop
  | named {name : String} {args : List Ty} (hname : Text.IsIdentifier name)
      (h : ∀ a ∈ args, Readable a) : Readable (.named name args)
  | record {owner : Owner} {id : Nat} {fields : List (Field Ty)}
      (hnames : FieldName.Coherent (fields.map Field.name))
      (hlabels : ∀ s, .label s ∈ fields.map Field.name → Text.IsIdentifier s)
      (h : ∀ f ∈ fields, Readable f.value) : Readable (.record owner id fields)

def argText : Ty → String
  | .named name [] => name
  | .named name (arg :: args) => "(" ++ text (.named name (arg :: args)) ++ ")"
  | .record owner id fields => text (.record owner id fields)

theorem argsText_cons (arg : Ty) (rest : List Ty) :
    argsText (arg :: rest) = " " ++ arg.argText ++ argsText rest := by
  match arg with
  | .named _ [] => rw [argsText, argText]
  | .named _ (_ :: _) =>
    rw [argsText, argText, ← String.toList_inj]
    simp
  | .record _ _ _ => rw [argsText, argText]

theorem elementTexts_eq_map (fields : List (Field Ty)) :
    elementTexts fields = fields.map fun f => f.value.text := by
  induction fields with
  | nil => rw [elementTexts]; rfl
  | cons f rest ih => rw [elementTexts, ih]; rfl

theorem fieldTexts_eq_map (fields : List (Field Ty)) :
    fieldTexts fields = fields.map fun f => f.name.text ++ "::" ++ f.value.text := by
  induction fields with
  | nil => rw [fieldTexts]; rfl
  | cons f rest ih => rw [fieldTexts, ih]; rfl

theorem text_named (name : String) (args : List Ty) :
    (named name args).text = name ++ argsText args := by rw [text]

theorem text_record (owner : Owner) (id : Nat) (fields : List (Field Ty)) :
    (record owner id fields).text.toList =
      Reader.shown Field.name "::" (fun f => f.value.text) fields := by
  rw [text, elementTexts_eq_map, fieldTexts_eq_map, Reader.shown]
  split <;> simp

theorem balanced_argText {t : Ty} (h : Balanced t.shape.nesting t.text.toList) :
    Balanced t.shape.argNesting t.argText.toList := by
  match t with
  | .named name [] => simpa [argText, text_named, argsText, Shape.argNesting] using h
  | .named name (arg :: args) =>
    have he : Balanced ((named name (arg :: args)).shape.nesting + 1)
        ('(' :: ((named name (arg :: args)).text.toList ++ [')'])) :=
      h.enclosed (.inl rfl) (.inl rfl)
    simpa [argText, Shape.argNesting] using he
  | .record owner id fields => simpa [argText, Shape.argNesting] using h

theorem balanced_argsText {args : List Ty}
    (h : ∀ a ∈ args, Balanced a.shape.nesting a.text.toList) :
    Balanced ((args.map fun a => a.shape.argNesting).foldr max 0) (argsText args).toList := by
  induction args with
  | nil => simpa [argsText] using Text.balanced_nil
  | cons arg rest ih =>
    have harg := (balanced_argText (h arg List.mem_cons_self)).cons (c := ' ') (by decide)
    have hrest := ih fun a ha => h a (List.mem_cons_of_mem arg ha)
    simpa [argsText_cons] using harg.append hrest

theorem balanced_field [Alphabet] {n : FieldName} (hn : n.Legible) {t : Ty}
    (h : Balanced t.shape.nesting t.text.toList) :
    Balanced t.shape.nesting (n.text ++ "::" ++ t.text).toList := by
  have hname : Balanced 0 n.text.toList := by
    cases n with
    | label s => exact Text.IsIdentifier.balanced hn
    | position k => exact Text.balanced_toString k
  have hsep := (h.cons (c := ':') (by decide)).cons (c := ':') (by decide)
  simpa using hname.append hsep

/-- The brackets of the printed text nest as the shape says. -/
theorem Readable.balanced [Alphabet] {t : Ty} (h : t.Readable) :
    Balanced t.shape.nesting t.text.toList := by
  induction h with
  | @named name args hname _ ih =>
    have hargs := balanced_argsText ih
    rw [text_named, shape_named, Shape.nesting_named, List.map_map]
    simpa [Function.comp_def] using hname.balanced.append hargs
  | @record owner id fields hnames hlabels _ ih =>
    rw [text_record, shape_record, Shape.nesting_record, List.map_map, Reader.shown]
    by_cases htuple : showsAsTuple (fields.map Field.name)
    · rw [if_pos htuple]
      exact (Text.balanced_commas ih).enclosed (.inl rfl) (.inl rfl)
    · rw [if_neg htuple]
      have hlegible := legible_of_not_showsAsTuple hnames hlabels (by simpa using htuple)
      refine (Text.balanced_commas fun f hf => ?_).enclosed (.inr rfl) (.inr rfl)
      exact balanced_field (hlegible f.name (List.mem_map_of_mem hf)) (ih f hf)

end Ty

namespace TypeExpr

theorem fields_shape {fields : List (Field Ty)} {xs : List (FieldExpr TypeExpr)}
    (h : List.Forall₂ (fun f x => x.name = f.name ∧ x.item.shape = f.value.shape) fields xs) :
    (xs.map FieldExpr.field).map (Field.map shape) = fields.map (Field.map Ty.shape) := by
  induction h with
  | nil => rfl
  | @cons f x fields xs hx _ ih =>
    have hhead : x.field.map shape = f.map Ty.shape := by
      simp [Field.map, FieldExpr.field, hx]
    simp only [List.map_cons, ih, hhead]

theorem record_shape {fields : List (Field Ty)} (ha : Field.Ascending fields)
    {xs : List (FieldExpr TypeExpr)} (span : Span)
    (h : (xs.map FieldExpr.field).map (Field.map shape) = fields.map (Field.map Ty.shape)) :
    (record ⟨xs, span⟩).shape = .record (fields.map (Field.map Ty.shape)) := by
  have hnames := Field.names_eq_of_map_eq h
  rw [shape_record, (ha.of_names_eq hnames).sorted_eq, h]

end TypeExpr

namespace Ty

open Reader

variable {limit : Nat} {accept : TypeExpr → Except SyntaxError TypeExpr}

theorem separates_doubleColon [Alphabet] : Separates typeGrammar limit accept "::" := by
  intro frames b done name nameSpan rest
  refine ⟨Text.delimited_of_ascii (by decide), ?_⟩
  exact .single ⟨':', [':'], rfl, by decide⟩ (Lexeme.take_doubleColon rest) fun span =>
    ⟨_, rfl, rfl⟩

theorem ready_part (frames : List (Frame TypeExpr Application)) (a : Application) :
    Ready typeGrammar limit accept frames a.typeExpr ⟨frames, .part a⟩ := by
  intro t ht
  obtain ⟨lexeme, span⟩ := t
  simp only [List.mem_cons, List.not_mem_nil, or_false] at ht
  rcases ht with rfl | rfl | rfl | rfl <;> rfl

theorem opens_part (frames : List (Frame TypeExpr Application)) (a : Application) :
    Opens typeGrammar limit accept frames (some a) ⟨frames, .part a⟩ := by
  intro t ht
  obtain ⟨lexeme, span⟩ := t
  cases lexeme <;> simp [Lexeme.opens] at ht <;> rfl

variable [Alphabet]

/-- A type is read as an expression of its shape, in brackets if it is a record. -/
structure ReadsBack (limit : Nat) (accept : TypeExpr → Except SyntaxError TypeExpr)
    (t : Ty) : Prop where
  spells : Spells typeGrammar limit accept t.text.toList t.shape.nesting (·.shape = t.shape)
  encloses : t.recordType?.isSome →
    Encloses typeGrammar limit accept t.text.toList t.shape.nesting (·.shape = t.shape)

theorem ReadsBack.reads_argText {t : Ty} (h : t.ReadsBack limit accept) (hr : t.Readable)
    {frames : List (Frame TypeExpr Application)} (a : Application)
    (hroom : frames.length + t.shape.argNesting ≤ limit) {rest : List Char}
    (hrest : Text.Delimited rest) :
    Reads typeGrammar limit accept ⟨frames, .part a⟩ t.argText.toList rest fun r =>
      ∃ e : TypeExpr, r = ⟨frames, .part (a.push e)⟩ ∧ e.shape = t.shape := by
  have henclosed {cs : List Char} {room : Nat}
      (he : Encloses typeGrammar limit accept cs room (·.shape = t.shape))
      (hroom : frames.length + room ≤ limit) :
      Reads typeGrammar limit accept ⟨frames, .part a⟩ cs rest fun r =>
        ∃ e : TypeExpr, r = ⟨frames, .part (a.push e)⟩ ∧ e.shape = t.shape := by
    refine (he _ frames (some a) rest (opens_part frames a) hroom).imp ?_
    rintro r ⟨b, e, hb, rfl, hshape⟩
    exact ⟨e, by simp [closed, hb, typeGrammar], hshape⟩
  cases t with
  | named name args =>
    cases args with
    | nil =>
      cases hr with
      | named hname _ =>
        exact .word hname hrest fun span => ⟨_, rfl, .named name [] span, rfl, rfl⟩
    | cons arg args =>
      have hp := henclosed h.spells.parenthesized hroom
      simpa [argText] using hp
  | record owner id fields => exact henclosed (h.encloses rfl) hroom

theorem delimited_argsText (args : List Ty) {rest : List Char} (hrest : Text.Delimited rest) :
    Text.Delimited ((argsText args).toList ++ rest) := by
  cases args with
  | nil => simpa [argsText] using hrest
  | cons arg args =>
    have hspace : (argsText (arg :: args)).toList ++ rest =
        ' ' :: (arg.argText.toList ++ (argsText args).toList ++ rest) := by simp [argsText_cons]
    rw [hspace]
    exact Text.delimited_of_ascii (by decide)

theorem reads_argsText {args : List Ty}
    (h : ∀ t ∈ args, t.ReadsBack limit accept ∧ t.Readable)
    {frames : List (Frame TypeExpr Application)} (a : Application)
    (hroom : frames.length + (args.map fun t => t.shape.argNesting).foldr max 0 ≤ limit)
    {rest : List Char} (hrest : Text.Delimited rest) :
    Reads typeGrammar limit accept ⟨frames, .part a⟩ (argsText args).toList rest fun r =>
      ∃ a' : Application, r = ⟨frames, .part a'⟩ ∧ a'.name = a.name ∧
        a'.args.map TypeExpr.shape = a.args.map TypeExpr.shape ++ args.map Ty.shape := by
  induction args generalizing a with
  | nil => simpa [argsText] using Reads.nil ⟨a, rfl, rfl, by simp⟩
  | cons t ts ih =>
    obtain ⟨hback, hreadable⟩ := h t List.mem_cons_self
    simp only [List.map_cons, List.foldr_cons] at hroom
    have hd := delimited_argsText ts hrest
    have harg : frames.length + t.shape.argNesting ≤ limit := by omega
    have hmore : frames.length + (ts.map fun u => u.shape.argNesting).foldr max 0 ≤ limit := by
      omega
    have ht := hback.reads_argText hreadable a harg hd
    have htext : (argsText (t :: ts)).toList =
        ' ' :: (t.argText.toList ++ (argsText ts).toList) := by simp [argsText_cons]
    rw [htext]
    refine .blank (by decide) (ht.append ?_)
    rintro r ⟨e, rfl, he⟩
    refine (ih (fun u hu => h u (List.mem_cons_of_mem t hu)) (a.push e) hmore).imp ?_
    rintro r ⟨a', rfl, hname, hargs⟩
    exact ⟨a', rfl, hname, by simp [hargs, Application.push, he]⟩

theorem spells_named {name : String} (hname : Text.IsIdentifier name) {args : List Ty}
    (h : ∀ t ∈ args, t.ReadsBack limit accept ∧ t.Readable) :
    Spells typeGrammar limit accept (named name args).text.toList
      (named name args).shape.nesting (·.shape = (named name args).shape) := by
  intro frames rest hroom hrest
  rw [shape_named, Shape.nesting_named, List.map_map] at hroom
  have hword : Reads typeGrammar limit accept ⟨frames, .item⟩ name.toList
      ((argsText args).toList ++ rest) fun r => ∃ span, r = ⟨frames, .part ⟨name, span, []⟩⟩ :=
    .word hname (delimited_argsText args hrest) fun span => ⟨_, rfl, span, rfl⟩
  rw [text_named, String.toList_append]
  apply hword.append
  rintro r ⟨span, rfl⟩
  refine (reads_argsText h ⟨name, span, []⟩ hroom hrest).imp ?_
  rintro r ⟨a, rfl, ha, hargs⟩
  refine ⟨a.typeExpr, ready_part frames a, ?_⟩
  simp [Application.typeExpr, ha, hargs]

theorem encloses_record {owner : Owner} {id : Nat} {fields : List (Field Ty)}
    (ha : Field.Ascending fields) (hnames : FieldName.Coherent (fields.map Field.name))
    (hlabels : ∀ s, .label s ∈ fields.map Field.name → Text.IsIdentifier s)
    (h : ∀ f ∈ fields, f.value.ReadsBack limit accept) :
    Encloses typeGrammar limit accept (record owner id fields).text.toList
      (record owner id fields).shape.nesting (·.shape = (record owner id fields).shape) := by
  rw [text_record, shape_record, Shape.nesting_record, List.map_map]
  have hspells : ∀ f ∈ fields, Spells typeGrammar limit accept f.value.text.toList
      ((fields.map fun f => f.value.shape.nesting).foldr max 0) (·.shape = f.value.shape) :=
    fun f hf => (h f hf).spells.mono (Text.le_foldr_max (List.mem_map_of_mem hf))
  refine (Encloses.shown separates_doubleColon hnames hlabels hspells).imp ?_
  rintro e ⟨xs, span, rfl, hxs⟩
  exact TypeExpr.record_shape ha span (TypeExpr.fields_shape hxs)

/-- A readable type of a registry is read back. -/
theorem Readable.readsBack {g : Registry} (hv : g.Valid) {t : Ty} (hw : t.Within g)
    (h : t.Readable) : t.ReadsBack limit accept := by
  induction t using Ty.induction with
  | named name args ih =>
    cases h with
    | named hname hargs =>
      have hback : ∀ t ∈ args, t.ReadsBack limit accept ∧ t.Readable := fun t ht =>
        ⟨ih t ht (hw.of_mem_args ht) (hargs t ht), hargs t ht⟩
      exact ⟨spells_named hname hback, nofun⟩
  | record owner id fields ih =>
    cases h with
    | record hnames hlabels hfields =>
      let r : RecordType := ⟨owner, id, fields⟩
      have ha : Field.Ascending fields := hv.ascending_of_holds (Within.holds (r := r) hw)
      have hback : ∀ f ∈ fields, f.value.ReadsBack limit accept := fun f hf =>
        ih f hf (Within.of_mem_fields (r := r) hw hf) (hfields f hf)
      have he : Encloses typeGrammar limit accept r.ty.text.toList r.ty.shape.nesting
          (·.shape = r.ty.shape) := encloses_record ha hnames hlabels hback
      exact ⟨he.spells, fun _ => he⟩

end Ty

end RecordLens
