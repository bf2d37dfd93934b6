import RecordLens.Proofs.Literal.Invariant
import RecordLens.Proofs.Ty.Identity
import RecordLens.Proofs.Ty.Reading
import RecordLens.Text.Unicode

/-! Printing types and reading them back. A readable type of a registry is read back from its text
wherever brackets may nest as deep as they do in the text. A type that was elaborated from a text
is readable, and its own text needs no deeper brackets than that one. -/

namespace RecordLens

namespace Shape

theorem nesting_le_argNesting (s : Shape) : s.nesting ≤ s.argNesting := by
  match s with
  | .named _ [] => exact Nat.le_refl _
  | .named _ (_ :: _) => exact Nat.le_succ _
  | .record _ => exact Nat.le_refl _

theorem argNesting_le (s : Shape) : s.argNesting ≤ s.nesting + 1 := by
  match s with
  | .named _ [] => exact Nat.le_succ _
  | .named _ (_ :: _) => exact Nat.le_refl _
  | .record _ => exact Nat.le_succ _

end Shape

section

variable [Alphabet]

namespace TypeExpr

/-- Named types and labels are identifiers, and the names of each record have been checked. -/
inductive WellFormed : TypeExpr → Prop
  | named {name : String} {args : List TypeExpr} {span : Span} (hname : Text.IsIdentifier name)
      (h : ∀ a ∈ args, WellFormed a) : WellFormed (.named name args span)
  | record {fields : List (FieldExpr TypeExpr)} {span : Span}
      (hnames : FieldExpr.checkNames fields span = .ok ())
      (hlabels : ∀ f ∈ fields, f.name.WellNamed) (h : ∀ f ∈ fields, WellFormed f.item) :
      WellFormed (.record ⟨fields, span⟩)

/-- The expression stands inside `depth` brackets, and the limit has room for its own. -/
def Fits (limit depth : Nat) (e : TypeExpr) : Prop :=
  e.WellFormed ∧ e.shape.nesting + depth ≤ limit

def FitsAsArg (limit depth : Nat) (e : TypeExpr) : Prop :=
  e.WellFormed ∧ e.shape.argNesting + depth ≤ limit

def ApplicationFits (limit depth : Nat) (a : Application) : Prop :=
  Text.IsIdentifier a.name ∧ depth ≤ limit ∧ ∀ e ∈ a.args, e.FitsAsArg limit depth

theorem fits_typeExpr {limit depth : Nat} {a : Application} (h : ApplicationFits limit depth a) :
    a.typeExpr.Fits limit depth := by
  obtain ⟨hname, hdepth, hargs⟩ := h
  refine ⟨.named hname fun e he => (hargs e he).1, ?_⟩
  have hle : ((a.args.map shape).map Shape.argNesting).foldr max 0 ≤ limit - depth := by
    rw [Text.foldr_max_le_iff]
    intro n hn
    obtain ⟨s, hs, rfl⟩ := List.mem_map.1 hn
    obtain ⟨e, he, rfl⟩ := List.mem_map.1 hs
    have := (hargs e he).2
    omega
  rw [Application.typeExpr, shape_named, Shape.nesting_named]
  omega

theorem applicationFits_push {limit depth : Nat} {a : Application} {e : TypeExpr}
    (ha : ApplicationFits limit depth a) (he : e.FitsAsArg limit depth) :
    ApplicationFits limit depth (a.push e) := by
  obtain ⟨hname, hdepth, hargs⟩ := ha
  refine ⟨hname, hdepth, fun x hx => ?_⟩
  rcases List.mem_append.1 hx with hx | hx
  · exact hargs x hx
  · rwa [List.mem_singleton.1 hx]

theorem fitsAsArg_record {limit depth : Nat} {fields : List (FieldExpr TypeExpr)} {span : Span}
    (hdepth : depth < limit) (hnames : FieldExpr.checkNames fields span = .ok ())
    (h : ∀ f ∈ fields, f.name.WellNamed ∧ f.item.Fits limit (depth + 1)) :
    (record ⟨fields, span⟩).FitsAsArg limit depth := by
  refine ⟨.record hnames (fun f hf => (h f hf).1) fun f hf => (h f hf).2.1, ?_⟩
  have hle : (((Field.sorted (fields.map FieldExpr.field)).map (Field.map shape)).map
      fun f => f.value.nesting).foldr max 0 ≤ limit - depth - 1 := by
    rw [Text.foldr_max_le_iff]
    intro n hn
    simp only [List.map_map, List.mem_map, Field.mem_sorted] at hn
    obtain ⟨x, ⟨f, hf, rfl⟩, rfl⟩ := hn
    have hfits : f.item.shape.nesting + (depth + 1) ≤ limit := (h f hf).2.2
    have hvalue : ((fun f : Field Shape => f.value.nesting) ∘ Field.map shape) f.field =
        f.item.shape.nesting := rfl
    rw [hvalue]
    omega
  rw [shape_record, Shape.argNesting, Shape.nesting_record]
  · omega
  · intro name arg args h
    cases h

theorem keeps_fits (limit : Nat) :
    Reader.Keeps typeGrammar limit (Fits limit) (ApplicationFits limit) (FitsAsArg limit) where
  start_item {depth t e} _ _ h := by
    simp only [typeGrammar] at h
    split at h <;> simp at h
  start_part {depth t a} ht hdepth h := by
    simp only [typeGrammar] at h
    split at h
    · next name hname =>
      obtain rfl : _ = a := by simpa using h
      exact ⟨ht name hname, hdepth, by simp⟩
    · simp at h
  extend_whole {depth a t e} _ _ h := by
    simp only [typeGrammar] at h
    split at h
    · simp at h
    · split at h <;> simp at h
  extend_part {depth a t b} ht ha h := by
    simp only [typeGrammar] at h
    split at h
    · next name hname =>
      obtain rfl : a.push (.named name [] t.span) = b := by simpa using h
      refine applicationFits_push ha ⟨.named (ht name hname) (by simp), ?_⟩
      simpa [Shape.argNesting, Shape.nesting_named] using ha.2.1
    · split at h <;> simp at h
  extend_ended {depth a t e} ha h := by
    simp only [typeGrammar] at h
    split at h
    · simp at h
    · split at h
      · simp at h
      · obtain rfl : a.typeExpr = e := by simpa using h
        exact fits_typeExpr ha
  join ha he := applicationFits_push ha he
  unbracketed {depth e} he := ⟨he.1, by
    have := Shape.nesting_le_argNesting e.shape
    have := he.2
    omega⟩
  parenthesized {depth e} he := ⟨he.1, by
    have := Shape.argNesting_le e.shape
    have := he.2
    omega⟩
  record hdepth hnames h := fitsAsArg_record hdepth hnames h

theorem fits_of_read {limit : Nat} {text : String} {e : TypeExpr} (h : read limit text = .ok e) :
    e.Fits limit 0 := by
  obtain ⟨x, hx, he⟩ := Reader.holds_of_read (keeps_fits limit) h
  exact Except.ok.inj he ▸ hx

theorem readable_of_shape_eq {g : Registry} (hv : g.Valid) {e : TypeExpr} (he : e.WellFormed)
    {t : Ty} (ht : t.Within g) (h : t.shape = e.shape) : t.Readable := by
  induction e using TypeExpr.induction generalizing t with
  | named name args span ih =>
    cases t with
    | record owner id fields => simp at h
    | named name' ts =>
      obtain ⟨rfl, hargs⟩ : name' = name ∧ ts.map Ty.shape = args.map shape := by simpa using h
      cases he with
      | named hname hall =>
        refine .named hname fun u hu => ?_
        have hmem : u.shape ∈ args.map shape := hargs ▸ List.mem_map_of_mem hu
        obtain ⟨a, ha, hshape⟩ := List.mem_map.1 hmem
        exact ih a ha (hall a ha) (ht.of_mem_args hu) hshape.symm
  | record fields span ih =>
    cases t with
    | named name args => simp at h
    | record owner id ys =>
      let r : RecordType := ⟨owner, id, ys⟩
      have hshapes : ys.map (Field.map Ty.shape) =
          (Field.sorted (fields.map FieldExpr.field)).map (Field.map shape) := by simpa using h
      -- sorting hides which field was written where, so each is found again by its shape
      have hfield : ∀ y ∈ ys, ∃ f ∈ fields, f.name = y.name ∧ f.item.shape = y.value.shape := by
        intro y hy
        have hmem : y.map Ty.shape ∈
            (Field.sorted (fields.map FieldExpr.field)).map (Field.map shape) :=
          hshapes ▸ List.mem_map_of_mem hy
        obtain ⟨x, hx, hxy⟩ := List.mem_map.1 hmem
        obtain ⟨f, hf, rfl⟩ : ∃ f ∈ fields, f.field = x := by simpa using hx
        obtain ⟨hname, hshape⟩ := Field.mk.inj hxy
        exact ⟨f, hf, hname, hshape⟩
      cases he with
      | record hnames hlabels hall =>
        refine .record ?_ (fun s hs => ?_) fun y hy => ?_
        · have hsorted : (ys.map Field.name).Pairwise (· < ·) :=
            Field.ascending_iff_names.1 (hv.ascending_of_holds (Ty.Within.holds (r := r) ht))
          refine FieldExpr.coherent_of_checkNames hnames hsorted ?_
          rw [Field.names_eq_of_map_eq hshapes]
          exact FieldExpr.names_sorted_perm fields
        · obtain ⟨y, hy, hname⟩ := List.mem_map.1 hs
          obtain ⟨f, hf, hfname, -⟩ := hfield y hy
          exact hlabels f hf s (hfname.trans hname)
        · obtain ⟨f, hf, -, hshape⟩ := hfield y hy
          exact ih f hf (hall f hf) (Ty.Within.of_mem_fields (r := r) ht hy) hshape.symm

end TypeExpr

end

namespace Ty

section

variable [Alphabet]

theorem exists_read_text {g : Registry} (hv : g.Valid) {t : Ty} (hr : t.Readable)
    (hw : t.Within g) {limit : Nat} (hroom : t.shape.nesting ≤ limit) :
    ∃ e, TypeExpr.read limit t.text = .ok e ∧ e.elaborate.outcome g = (.ok t, g) := by
  obtain ⟨e, he, hshape⟩ := (hr.readsBack hv hw).spells.read hroom
  exact ⟨e, he, TypeExpr.outcome_elaborate_of_shape_eq hv hw hshape⟩

theorem eq_of_text_eq {g : Registry} (hv : g.Valid) {t u : Ty} (ht : t.Readable)
    (htw : t.Within g) (hu : u.Readable) (huw : u.Within g) (h : t.text = u.text) : t = u := by
  have hnesting : t.shape.nesting = u.shape.nesting := by
    rw [← ht.balanced.nesting_eq, ← hu.balanced.nesting_eq, h]
  obtain ⟨e, he, het⟩ := exists_read_text hv ht htw (Nat.le_refl t.shape.nesting)
  obtain ⟨e', he', heu⟩ := exists_read_text hv hu huw (Nat.le_refl u.shape.nesting)
  rw [← h, ← hnesting, he] at he'
  obtain rfl := Except.ok.inj he'
  rw [het] at heu
  exact Except.ok.inj (Prod.mk.inj heu).1

theorem exists_read_text_of_read {g g' : Registry} (hv : g.Valid) {limit : Nat} {text : String}
    {e : TypeExpr} {t : Ty} (he : TypeExpr.read limit text = .ok e)
    (h : e.elaborate.outcome g = (.ok t, g')) :
    ∃ e', TypeExpr.read limit t.text = .ok e' ∧ e'.elaborate.outcome g' = (.ok t, g') := by
  obtain ⟨hw, hshape⟩ := TypeExpr.within_and_shape_of_elaborate h
  have hv' : g'.Valid := ((TypeExpr.extends_elaborate e).grows h).valid hv
  obtain ⟨hwell, hroom⟩ := TypeExpr.fits_of_read he
  exact exists_read_text hv' (TypeExpr.readable_of_shape_eq hv' hwell hw hshape) hw
    (by rw [hshape]; exact hroom)

/-- The text of a readable type of a registry is read, wherever the limit has room for its
brackets, and denotes that type without an entry being made, so different types have different
texts. What was elaborated from a text has a text that the same limit admits. -/
theorem elaborate_read_text {g : Registry} (hg : g.Reachable) :
    (∀ t : Ty, t.Readable → t.Within g → ∀ limit, Text.nesting t.text ≤ limit →
      ∃ e, TypeExpr.read limit t.text = .ok e ∧ e.elaborate.outcome g = (.ok t, g)) ∧
    (∀ t u : Ty, t.Readable → t.Within g → u.Readable → u.Within g → t.text = u.text → t = u) ∧
    (∀ limit text e t g', TypeExpr.read limit text = .ok e →
      e.elaborate.outcome g = (.ok t, g') →
      ∃ e', TypeExpr.read limit t.text = .ok e' ∧ e'.elaborate.outcome g' = (.ok t, g')) := by
  have hv := hg.valid
  refine ⟨fun t ht hw limit hroom => ?_, fun t u ht htw hu huw => eq_of_text_eq hv ht htw hu huw,
    fun limit text e t g' => exists_read_text_of_read hv⟩
  rw [ht.balanced.nesting_eq] at hroom
  exact exists_read_text hv ht hw hroom

end

def singleType : RecordType := ⟨.registry 0, 0, [⟨.position 1, .primitive .char⟩]⟩

def pairType : RecordType :=
  ⟨.registry 0, 1, [⟨.position 1, .primitive .bool⟩, ⟨.position 2, singleType.ty⟩]⟩

/-- Printed `Either (List Int) (Bool, {1::Char})`. -/
def eitherType : Ty :=
  .named "Either" [.named "List" [.primitive .int], pairType.ty]

def eitherRegistry : Registry := ⟨.registry 0, [singleType.fields, pairType.fields]⟩

theorem readable_eitherType : eitherType.Readable := by
  have hprimitive (p : Primitive) : (Ty.primitive p).Readable :=
    .named (by cases p <;> decide +kernel) nofun
  have hsingle : singleType.ty.Readable :=
    .record (by decide) (by simp [singleType]) (by simpa [singleType] using hprimitive .char)
  have hpair : pairType.ty.Readable :=
    .record (by decide) (by simp [pairType])
      (by simpa [pairType] using ⟨hprimitive .bool, hsingle⟩)
  have hlist : (Ty.named "List" [.primitive .int]).Readable :=
    .named (by decide +kernel) (by simpa using hprimitive .int)
  exact .named (by decide +kernel) (by simpa using ⟨hlist, hpair⟩)

theorem within_eitherType : eitherType.Within eitherRegistry := by
  have hprimitive (p : Primitive) : (Ty.primitive p).Within eitherRegistry := .named nofun
  have hsingle : singleType.ty.Within eitherRegistry :=
    .record (by decide) (by simpa [singleType] using hprimitive .char)
  have hpair : pairType.ty.Within eitherRegistry :=
    .record (by decide) (by simpa [pairType] using ⟨hprimitive .bool, hsingle⟩)
  have hlist : (Ty.named "List" [.primitive .int]).Within eitherRegistry :=
    .named (by simpa using hprimitive .int)
  exact .named (by simpa using ⟨hlist, hpair⟩)

open Registry (Operation) in
/-- An applied type and a tuple as arguments, and inside the tuple a single field by position. -/
theorem elaborate_read_text_either :
    eitherRegistry.Reachable ∧ eitherType.Readable ∧ eitherType.Within eitherRegistry ∧
      Text.nesting eitherType.text ≤ 2 ∧
      ∃ e, TypeExpr.read 2 eitherType.text = .ok e ∧
        e.elaborate.outcome eitherRegistry = (.ok eitherType, eitherRegistry) ∧
        ∃ e', TypeExpr.read 2 eitherType.text = .ok e' ∧
          e'.elaborate.outcome eitherRegistry = (.ok eitherType, eitherRegistry) := by
  have hreachable : eitherRegistry.Reachable :=
    ⟨.registry 0, [.tupleType [.primitive .char], .tupleType [.primitive .bool, singleType.ty]],
      rfl⟩
  have hroom : Text.nesting eitherType.text ≤ 2 := by
    rw [readable_eitherType.balanced.nesting_eq]
    decide
  obtain ⟨hread, -, hagain⟩ := elaborate_read_text hreachable
  obtain ⟨e, he, h⟩ := hread eitherType readable_eitherType within_eitherType 2 hroom
  exact ⟨hreachable, readable_eitherType, within_eitherType, hroom, e, he, h,
    hagain 2 eitherType.text e eitherType eitherRegistry he h⟩

end Ty

end RecordLens
