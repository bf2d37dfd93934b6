import Mathlib.Tactic.Choose
import RecordLens.Proofs.Host.Shape
import RecordLens.Proofs.Literal.Positions
import RecordLens.Text.Unicode

/-! Types of host data as they are spelled. A spelling names the primitive types, puts the elements
of a tuple in parentheses and the fields of a structure in braces, in any order. What is read of it
has the shape of the data, so the data and its spelling have one type in every registry. -/

namespace RecordLens

open Literal (Phrase Clause inBraces inParens)

namespace Literal

def typeFieldText (f : Field String) : String := f.name.text ++ " :: " ++ f.value

def recordTypeText (fields : List (Field String)) : String :=
  "\x7b" ++ Text.commas (fields.map typeFieldText) ++ "\x7d"

end Literal

section

variable [Alphabet]

namespace Host

/-- The forms that are declared in a program: primitive data, and structures of such forms whose
fields have distinct names, identifiers or the positions from one on, which fit in 32 bits. -/
inductive Declared : Host → Prop
  | primitive (p : Primitive) : Declared (.primitive p)
  | struct {fields : List (Field Host)} (hn : (fields.map Field.name).Nodup)
      (hnames : FieldName.Coherent (fields.map Field.name))
      (hlegible : ∀ f ∈ fields, f.name.Legible) (h : ∀ f ∈ fields, Declared f.value) :
      Declared (.struct fields)

theorem Declared.derived {host : Host} (h : host.Declared) : host.Derived := by
  induction h with
  | primitive p => exact .primitive p
  | struct hn _ _ _ ih => exact .struct hn ih

theorem declared_tuple {elements : List Host} (hlength : elements.length < FieldName.positionBound)
    (h : ∀ host ∈ elements, host.Declared) : (tuple elements).Declared := by
  have hnames := Field.map_name_positions 1 elements
  refine .struct (Field.nodup_positions 1 elements) (.inr ?_) (fun f hf => ?_) fun f hf => ?_
  · rw [hnames]
    simp
  · obtain ⟨n, hn, he⟩ := List.mem_map.1 (hnames ▸ List.mem_map_of_mem hf)
    rw [← he]
    have hrange := List.mem_range'_1.1 hn
    exact ⟨by omega, by omega⟩
  · exact h f.value (Field.value_mem_of_mem_positions hf)

/-- The text spells the type of the data. Every structure is spelled in braces, in any order of its
fields, and a tuple of two to four elements may be spelled in parentheses. -/
inductive Spelled : Host → String → Prop
  | primitive (p : Primitive) : Spelled (.primitive p) p.name
  | tuple (rows : List (Host × String)) (harity : 2 ≤ rows.length ∧ rows.length ≤ 4)
      (h : ∀ r ∈ rows, Spelled r.1 r.2) :
      Spelled (tuple (rows.map Prod.fst)) (Literal.tupleText (rows.map Prod.snd))
  | struct (rows order : List (Field (Host × String))) (horder : order.Perm rows)
      (h : ∀ r ∈ rows, Spelled r.value.1 r.value.2) :
      Spelled (.struct (rows.map (Field.map Prod.fst)))
        (Literal.recordTypeText (order.map (Field.map Prod.snd)))

theorem Declared.exists_spelled {host : Host} (h : host.Declared) :
    ∃ text, host.Spelled text := by
  induction h with
  | primitive p => exact ⟨p.name, .primitive p⟩
  | @struct fields _ _ _ _ ih =>
    choose! text htext using ih
    let rows := fields.map fun f => (⟨f.name, f.value, text f⟩ : Field (Host × String))
    have hrows : rows.map (Field.map Prod.fst) = fields := by
      simp [rows, Function.comp_def, Field.map]
    have hall : ∀ r ∈ rows, r.value.1.Spelled r.value.2 := by
      intro r hr
      obtain ⟨f, hf, rfl⟩ := List.mem_map.1 hr
      exact htext f hf
    refine ⟨Literal.recordTypeText (rows.map (Field.map Prod.snd)), ?_⟩
    have hspelled := Spelled.struct rows rows (.refl rows) hall
    rwa [hrows] at hspelled

end Host

namespace Token

theorem lexes_identifier {s : String} (h : Text.IsIdentifier s) : Lexes s [.identifier s] := by
  have hlegible : (FieldName.label s).Legible := h
  obtain ⟨c, cs, hcs, hc⟩ := hlegible.text_eq_cons
  have htake := hlegible.take_text Text.delimited_nil
  rw [List.append_nil] at htake
  have hs : s.toList = c :: cs := hcs
  rw [hcs] at htake
  rw [lexes_iff_scans, hs]
  exact .lexeme hc htake .done

theorem lexes_typeFieldText {f : Field String} (hn : f.name.Legible) {ls : List Lexeme}
    (h : Lexes f.value ls) :
    Lexes (Literal.typeFieldText f) (f.name.lexeme :: .doubleColon :: ls) := by
  have hcolons : Scans [] (' ' :: ':' :: ':' :: ' ' :: f.value.toList) (.doubleColon :: ls) :=
    .blank (by decide) (.lexeme (by decide) (Lexeme.take_doubleColon _)
      (.blank (by decide) h.scans))
  exact lexes_named hn (by simp [Literal.typeFieldText]) hcolons

end Token

end

theorem FieldName.Coherent.admissible {names order : List FieldName} (h : Coherent names)
    (horder : order.Perm names) : Admissible order := by
  cases h with
  | inl hlabels => exact .inl fun n hn => hlabels n (horder.mem_iff.1 hn)
  | inr hpositions =>
    refine .inr ⟨fun n hn => ?_, fun _ => ?_⟩
    · have hmem := horder.mem_iff.1 hn
      rw [hpositions] at hmem
      obtain ⟨k, -, rfl⟩ := List.mem_map.1 hmem
      rfl
    · rw [horder.length_eq, ← hpositions]
      exact horder

namespace Host

theorem exists_of_nesting_le {fields : List (Field Host)} (hn : (fields.map Field.name).Nodup)
    {n : Nat} (h : (struct fields).shape.nesting ≤ n) :
    ∃ m, n = m + 1 ∧ ∀ f ∈ fields, f.value.shape.nesting ≤ m := by
  have hnames : ((fields.map (Field.map shape)).map Field.name).Nodup := by rwa [Field.names_map]
  rw [shape_struct, Shape.nesting_record] at h
  obtain ⟨m, rfl⟩ := Nat.exists_eq_add_of_lt h
  refine ⟨_, rfl, fun f hf => ?_⟩
  have hmem : f.map shape ∈ Field.ofFields (fields.map (Field.map shape)) :=
    (Field.ofFields_perm hnames).mem_iff.2 (List.mem_map_of_mem hf)
  exact Nat.le_add_right_of_le (Text.le_foldr_max (List.mem_map.2 ⟨_, hmem, rfl⟩))

theorem shape_eq_of_perm {fields : List (Field Host)} (hn : (fields.map Field.name).Nodup)
    {xs : List (Field TypeExpr)}
    (h : (xs.map (Field.map TypeExpr.shape)).Perm (fields.map (Field.map shape))) :
    (TypeExpr.record ⟨xs.map FieldExpr.ofField, default⟩).shape = (struct fields).shape := by
  have hfields : (xs.map FieldExpr.ofField).map FieldExpr.field = xs := by
    simp [Function.comp_def, FieldExpr.ofField, FieldExpr.field]
  have hnames : ((fields.map (Field.map shape)).map Field.name).Nodup := by rwa [Field.names_map]
  rw [TypeExpr.shape_record, hfields, ← Field.sorted_map, shape_struct,
    Field.ofFields_eq_sorted hnames]
  exact congrArg Shape.record (Field.sorted_eq_of_perm h ((h.map Field.name).nodup_iff.2 hnames))

variable [Alphabet]

/-- The text has the lexemes, and they derive an item of the shape of the data. -/
structure Reads (host : Host) (text : String) (p : Phrase TypeExpr) : Prop where
  lexes : Token.Lexes text p.lexemes
  written : ∀ n, host.shape.nesting ≤ n → TypeExpr.Written n p.lexemes p.item
  shape_eq : p.item.shape = host.shape

theorem isIdentifier_primitive (p : Primitive) : Text.IsIdentifier p.name := by
  cases p with
  | int => exact Text.isIdentifier_of_isAlphanum 'I' ['n', 't'] rfl rfl
  | double => exact Text.isIdentifier_of_isAlphanum 'D' ['o', 'u', 'b', 'l', 'e'] rfl rfl
  | bool => exact Text.isIdentifier_of_isAlphanum 'B' ['o', 'o', 'l'] rfl rfl
  | char => exact Text.isIdentifier_of_isAlphanum 'C' ['h', 'a', 'r'] rfl rfl
  | string =>
    exact Text.isIdentifier_of_isAlphanum 'S' ['t', 'r', 'i', 'n', 'g'] rfl rfl

theorem reads_primitive (p : Primitive) :
    Reads (.primitive p) p.name ⟨[.identifier p.name], .named p.name [] default⟩ where
  lexes := Token.lexes_identifier (isIdentifier_primitive p)
  written _ _ := .named p.name [] nofun
  shape_eq := by simp [shape]

theorem reads_tuple {rows : List (Host × String)} {phrase : Host × String → Phrase TypeExpr}
    (hlength : 1 < rows.length) (h : ∀ r ∈ rows, Reads r.1 r.2 (phrase r)) :
    Reads (tuple (rows.map Prod.fst)) (Literal.tupleText (rows.map Prod.snd))
      ⟨inParens (Literal.commas ((rows.map phrase).map Phrase.lexemes)),
        .record ⟨FieldExpr.positions (fun _ => default) 1 ((rows.map phrase).map Phrase.item),
          default⟩⟩ where
  lexes := by
    apply Token.lexes_tupleText
    rw [List.map_map, List.forall₂_map_left_iff, List.forall₂_map_right_iff, List.forall₂_same]
    exact fun r hr => (h r hr).lexes
  written n hn := by
    obtain ⟨m, rfl, hm⟩ := exists_of_nesting_le (Field.nodup_positions 1 (rows.map Prod.fst)) hn
    refine .bracketed (.tuple (rows.map phrase) (by simpa using hlength) ?_)
    rw [List.forall_mem_map]
    intro r hr
    obtain ⟨f, hf, he⟩ :=
      Field.exists_mem_positions_of_mem (List.mem_map_of_mem (f := Prod.fst) hr) 1
    exact (h r hr).written m (he ▸ hm f hf)
  shape_eq := by
    have hshapes : ((rows.map phrase).map Phrase.item).map TypeExpr.shape =
        (rows.map Prod.fst).map shape := by
      simpa using fun r hr => (h r hr).shape_eq
    rw [FieldExpr.positions_eq_map]
    apply shape_eq_of_perm (Field.nodup_positions 1 (rows.map Prod.fst))
    rw [← Field.positions_map, ← Field.positions_map, hshapes]

def clauseOf (phrase : Field (Host × String) → Phrase TypeExpr) (f : Field (Host × String)) :
    Clause TypeExpr := ⟨phrase f, f.name.lexeme, f.name⟩

theorem reads_struct {rows order : List (Field (Host × String))}
    {phrase : Field (Host × String) → Phrase TypeExpr} (horder : order.Perm rows)
    (hn : (rows.map Field.name).Nodup) (hnames : FieldName.Coherent (rows.map Field.name))
    (hlegible : ∀ r ∈ rows, r.name.Legible)
    (h : ∀ r ∈ rows, Reads r.value.1 r.value.2 (phrase r)) :
    Reads (.struct (rows.map (Field.map Prod.fst)))
      (Literal.recordTypeText (order.map (Field.map Prod.snd)))
      ⟨inBraces (Literal.commas ((order.map (clauseOf phrase)).map (Clause.row .doubleColon))),
        .record ⟨(order.map (clauseOf phrase)).map Clause.field, default⟩⟩ where
  lexes := by
    apply Token.lexes_braces
    rw [List.map_map, List.map_map, List.forall₂_map_left_iff, List.forall₂_map_right_iff,
      List.forall₂_same]
    intro r hr
    have hmem : r ∈ rows := horder.mem_iff.1 hr
    exact Token.lexes_typeFieldText (f := r.map Prod.snd) (hlegible r hmem) (h r hmem).lexes
  written n hdepth := by
    have hnodup : ((rows.map (Field.map Prod.fst)).map Field.name).Nodup := by
      rwa [Field.names_map]
    obtain ⟨m, rfl, hm⟩ := exists_of_nesting_le hnodup hdepth
    refine .bracketed (.braces (order.map (clauseOf phrase)) ?_ ?_ ?_)
    · rw [List.forall_mem_map]
      exact fun r hr => (hlegible r (horder.mem_iff.1 hr)).writtenAs
    · rw [List.map_map]
      exact hnames.admissible (horder.map Field.name)
    · rw [List.forall_mem_map]
      intro r hr
      have hmem : r ∈ rows := horder.mem_iff.1 hr
      exact (h r hmem).written m (hm (r.map Prod.fst) (List.mem_map_of_mem hmem))
  shape_eq := by
    have hnodup : ((rows.map (Field.map Prod.fst)).map Field.name).Nodup := by
      rwa [Field.names_map]
    have hclauses : (order.map (clauseOf phrase)).map Clause.field =
        (order.map fun r => (⟨r.name, (phrase r).item⟩ : Field TypeExpr)).map
          FieldExpr.ofField := by
      simp [Function.comp_def, clauseOf, Clause.field, FieldExpr.ofField]
    have hshapes : (order.map fun r =>
          (⟨r.name, (phrase r).item⟩ : Field TypeExpr)).map (Field.map TypeExpr.shape) =
        (order.map (Field.map Prod.fst)).map (Field.map shape) := by
      rw [List.map_map, List.map_map]
      apply List.map_congr_left
      intro r hr
      have hshape := (h r (horder.mem_iff.1 hr)).shape_eq
      simp [Field.map, hshape]
    rw [hclauses]
    apply shape_eq_of_perm hnodup
    rw [hshapes]
    exact (horder.map (Field.map Prod.fst)).map (Field.map shape)

theorem Declared.exists_reads {host : Host} (h : host.Declared) {text : String}
    (htext : host.Spelled text) : ∃ p, Reads host text p := by
  have : Nonempty (Phrase TypeExpr) := ⟨⟨[], .named "" [] default⟩⟩
  induction htext with
  | primitive p => exact ⟨_, reads_primitive p⟩
  | tuple rows harity _ ih =>
    cases h with
    | struct _ _ _ hfields =>
      have hrows : ∀ r ∈ rows, ∃ p, Reads r.1 r.2 p := by
        intro r hr
        obtain ⟨f, hf, he⟩ :=
          Field.exists_mem_positions_of_mem (List.mem_map_of_mem (f := Prod.fst) hr) 1
        exact ih r hr (he ▸ hfields f hf)
      choose! phrase hphrase using hrows
      exact ⟨_, reads_tuple harity.1 hphrase⟩
  | struct rows order horder _ ih =>
    cases h with
    | struct hn hnames hlegible hfields =>
      have hrows : ∀ r ∈ rows, ∃ p, Reads r.value.1 r.value.2 p := by
        intro r hr
        exact ih r hr (hfields (r.map Prod.fst) (List.mem_map_of_mem hr))
      choose! phrase hphrase using hrows
      rw [Field.names_map] at hn hnames
      rw [List.forall_mem_map] at hlegible
      exact ⟨_, reads_struct horder hn hnames hlegible hphrase⟩

end Host

theorem TypeExpr.shape_unplaced (e : TypeExpr) : e.unplaced.shape = e.shape := by
  induction e using TypeExpr.induction with
  | named name args span ih =>
    have hargs : (args.map unplaced).map shape = args.map shape := by simpa using ih
    rw [unplaced_named, shape_named, shape_named, hargs]
  | record fields span ih =>
    have hfields : ((fields.map (FieldExpr.unplaced unplaced)).map FieldExpr.field).map
        (Field.map shape) = (fields.map FieldExpr.field).map (Field.map shape) := by
      simpa [Field.map, FieldExpr.field, FieldExpr.unplaced] using ih
    rw [unplaced_record, shape_record, shape_record, ← Field.sorted_map, hfields, Field.sorted_map]

namespace Host

/-- Where brackets may nest as deep as the type, its spelling is read as an expression of its
shape. -/
theorem Declared.exists_read [Alphabet] {host : Host} (h : host.Declared) {text : String}
    (htext : host.Spelled text) {limit : Nat} (hlimit : host.shape.nesting ≤ limit) :
    ∃ e, TypeExpr.read limit text = .ok e ∧ e.shape = host.shape := by
  obtain ⟨p, hp⟩ := h.exists_reads htext
  obtain ⟨e, he, hitem⟩ := exists_of_map_eq_ok
    (TypeExpr.map_unplaced_read_iff.2 ⟨p.lexemes, hp.lexes, hp.written limit hlimit⟩)
  refine ⟨e, he, ?_⟩
  rw [← e.shape_unplaced, hitem, hp.shape_eq]

/-- Host types are the types that their spellings denote. In every registry the type and the
expression that is read agree, whichever is asked for first and whatever is entered between. So two
forms of data have one type if and only if their spellings denote the same structural type. -/
theorem Declared.spelling_denotes_ty [Alphabet] {a b : Host} (ha : a.Declared) (hb : b.Declared)
    {s u : String} (hs : a.Spelled s) (hu : b.Spelled u) {m n : Nat}
    (hm : a.shape.nesting ≤ m) (hn : b.shape.nesting ≤ n) {g : Registry} (hg : g.Reachable) :
    ∃ d e, TypeExpr.read m s = .ok d ∧ TypeExpr.read n u = .ok e ∧ a.Agrees d g ∧
      ∀ g', (a.ty.outcome g).2.Grows g' →
        ((a.ty.outcome g).1 = (b.ty.outcome g').1 ↔ d.shape = e.shape) := by
  obtain ⟨d, hd, hda⟩ := ha.exists_read hs hm
  obtain ⟨e, he, heb⟩ := hb.exists_read hu hn
  refine ⟨d, e, hd, he, ha.derived.agrees_of_shape_eq hda hg.valid, fun g' hgrows => ?_⟩
  rw [ty_eq_iff_shape_eq hg.valid hgrows, hda, heb]

def point : Host := tuple [.primitive .int, .primitive .int]

def markedPoint : Host := .struct [⟨.label "mark", .primitive .char⟩, ⟨.label "at", point⟩]

def pointMarked : Host := .struct [⟨.label "at", point⟩, ⟨.label "mark", .primitive .char⟩]

theorem declared_markedPoint : markedPoint.Declared ∧ pointMarked.Declared := by
  have hpoint : point.Declared := declared_tuple (by decide) (by simpa using .primitive .int)
  have hmark : (Host.primitive .char).Declared := .primitive .char
  exact ⟨.struct (by decide) (by decide) (by decide) (by simpa using ⟨hmark, hpoint⟩),
    .struct (by decide) (by decide) (by decide) (by simpa using ⟨hpoint, hmark⟩)⟩

theorem spelled_markedPoint :
    markedPoint.Spelled "\x7bat :: (Int, Int), mark :: Char\x7d" ∧
      pointMarked.Spelled "\x7bat :: \x7b2 :: Int, 1 :: Int\x7d, mark :: Char\x7d" := by
  have hint : (Host.primitive .int).Spelled "Int" := .primitive .int
  have hmark : (Host.primitive .char).Spelled "Char" := .primitive .char
  have htuple : point.Spelled "(Int, Int)" :=
    .tuple [(.primitive .int, "Int"), (.primitive .int, "Int")] (by decide) (by simpa using hint)
  have hturned : point.Spelled "\x7b2 :: Int, 1 :: Int\x7d" :=
    .struct [⟨.position 1, .primitive .int, "Int"⟩, ⟨.position 2, .primitive .int, "Int"⟩]
      [⟨.position 2, .primitive .int, "Int"⟩, ⟨.position 1, .primitive .int, "Int"⟩]
      (.swap _ _ _) (by simpa using hint)
  constructor
  · exact .struct
      [⟨.label "mark", .primitive .char, "Char"⟩, ⟨.label "at", point, "(Int, Int)"⟩]
      [⟨.label "at", point, "(Int, Int)"⟩, ⟨.label "mark", .primitive .char, "Char"⟩]
      (.swap _ _ _) (by simpa using ⟨hmark, htuple⟩)
  · exact .struct
      [⟨.label "at", point, "\x7b2 :: Int, 1 :: Int\x7d"⟩,
        ⟨.label "mark", .primitive .char, "Char"⟩]
      [⟨.label "at", point, "\x7b2 :: Int, 1 :: Int\x7d"⟩,
        ⟨.label "mark", .primitive .char, "Char"⟩]
      (.refl _) (by simpa using ⟨hturned, hmark⟩)

/-- The type is asked for first, and the record type without fields is entered before the others
are. -/
theorem spelling_denotes_ty_markedPoint :
    markedPoint.shape.nesting ≤ 2 ∧ pointMarked.shape.nesting ≤ 2 ∧
      (Registry.empty (.registry 0)).Reachable ∧ ∃ d e t g',
        TypeExpr.read 2 "\x7bat :: (Int, Int), mark :: Char\x7d" = .ok d ∧
        TypeExpr.read 2 "\x7bat :: \x7b2 :: Int, 1 :: Int\x7d, mark :: Char\x7d" = .ok e ∧
        d.shape = e.shape ∧ g'.size = 3 ∧
        (markedPoint.ty.outcome (.empty (.registry 0))).1 = t ∧
        d.elaborate.outcome g' = (.ok t, g') ∧ (pointMarked.ty.outcome g').1 = t := by
  have hreachable : (Registry.empty (.registry 0)).Reachable := ⟨.registry 0, [], rfl⟩
  have hm : markedPoint.shape.nesting ≤ 2 := by decide
  have hn : pointMarked.shape.nesting ≤ 2 := by decide
  obtain ⟨d, e, hd, he, hagrees, hiff⟩ := declared_markedPoint.1.spelling_denotes_ty
    declared_markedPoint.2 spelled_markedPoint.1 spelled_markedPoint.2 hm hn hreachable
  let g₁ := (markedPoint.ty.outcome (.empty (.registry 0))).2
  let g' := ((Registry.structType []).outcome g₁).2
  have hg : g₁.Grows g' := .intern .refl (Field.ascending_ofFields [])
  have hsame : (markedPoint.ty.outcome (.empty (.registry 0))).1 = (pointMarked.ty.outcome g').1 :=
    rfl
  exact ⟨hm, hn, hreachable, d, e, _, g', hd, he, (hiff g' hg).1 hsame, rfl, rfl,
    hagrees.host_first g' hg, hsame.symm⟩

end Host

end RecordLens
