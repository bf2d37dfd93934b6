import RecordLens.Proofs.Elaboration.Duplicates
import RecordLens.Proofs.Elaboration.Inference
import RecordLens.Proofs.Elaboration.Unplaced
import RecordLens.Proofs.Lens.Derivation
import RecordLens.Proofs.Literal.Positions
import RecordLens.Proofs.Path.Printed

/-! Tuples are records whose fields are named by position. The text of a tuple, and the text of a
record with the same items behind their positions, in whatever order, are elaborated to one value:
the tuple of what the items are elaborated to, one after the other. A lens made from the text of a
position gets what the item there denotes. Positions are ordered as numbers, so that with ten items
or more the tenth does not come before the second. -/

namespace RecordLens

theorem exists_getElem?_of_forall₂ {α β : Type} {R : α → β → Prop} {xs : List α} {ys : List β}
    (h : List.Forall₂ R xs ys) {i : Nat} {x : α} (hx : xs[i]? = some x) :
    ∃ y, ys[i]? = some y ∧ R x y := by
  induction h generalizing i with
  | nil => cases hx
  | @cons a b xs ys hab _ ih =>
    cases i with
    | zero =>
      obtain rfl := Option.some.inj hx
      exact ⟨b, rfl, hab⟩
    | succ i => exact ih hx

theorem RecordValue.outcome_tuple (values : List Value) (g : Registry) :
    g.Grows ((tuple values).outcome g).2 ∧
      ((tuple values).outcome g).1.type.fields =
        (Field.positions 1 values).map (Field.map Value.typeOf) ∧
      ((tuple values).outcome g).1.values = values := by
  rw [tuple, Field.ofFields_positions]
  obtain ⟨htypes, hvalues⟩ := outcome_ofCanonical (Field.positions 1 values) g
  refine ⟨?_, htypes, hvalues.trans (Field.map_value_positions 1 values)⟩
  exact .intern .refl ((Field.ascending_positions 1 values).map _)

namespace Lens

/-- The lens that is read from the name of a field gets what is stored where the field stands, and
sets there what has the type of the field. -/
theorem exists_read_name [Alphabet] {r : RecordValue} (ha : Field.Ascending r.type.fields) {i : Nat}
    {f : Field Ty} {v : Value} (hf : r.type.fields[i]? = some f) (hv : r.values[i]? = some v)
    (hn : f.name.Legible) :
    ∃ l, Lens.read r.value.typeOf f.name.text = .ok l ∧ l.get r.value = .ok v ∧
      ∀ leaf w, l.set r.value leaf = .ok w ↔
        f.value.accepts leaf = true ∧ w = (r.replaceAt i leaf).value := by
  let l : Lens := ⟨r.type.ty, f.value, [f.name], [i]⟩
  have haccepts : l.source.accepts r.value = true := Ty.accepts_iff.2 rfl
  have hindex : r.type.index? f.name = some i := (Field.index?_eq_some_iff ha).2 ⟨f, hf, rfl⟩
  have hresolve : r.type.ty.resolve [f.name] = .ok ([i], f.value) :=
    Ty.resolve_cons_ok.2 ⟨i, f.value, [], by simp [Ty.child?, hindex, hf], rfl, rfl⟩
  have hlegible : ∀ n ∈ [f.name], n.Legible := by simpa using hn
  obtain ⟨q, hq, hpath⟩ := PathExpr.exists_read_text (List.cons_ne_nil f.name []) hlegible
  have hderive : derivePath r.type.ty q.path = .ok l :=
    derivePath_eq_ok_iff.2 ⟨rfl, hpath.symm, hpath ▸ hresolve⟩
  refine ⟨l, read_eq_ok_iff.2 ⟨q, hq, hderive⟩, ?_, fun leaf w => ?_⟩
  · exact get_ok.2 ⟨haccepts, descend_cons.2 ⟨r.type, r.values, v, rfl, hv, rfl⟩⟩
  · have hreplace : replace r.value [i] leaf = some (r.replaceAt i leaf).value := by
      rw [RecordValue.value, replace_record hv]
      rfl
    rw [set_ok, and_iff_right haccepts]
    show _ ∧ replace r.value [i] leaf = some w ↔ _
    rw [hreplace, Option.some.injEq, eq_comm (a := w)]

end Lens

namespace Expr

open Elaboration
open Literal (tupleText recordText byPosition)

/-- The values of expressions that are elaborated one after the other, with no type expected. -/
def elaborateAll (es : List Expr) : Elaboration ValueError (List Value) :=
  es.mapM fun e => e.elaborate none []

theorem elaborateAll_cons (e : Expr) (es : List Expr) :
    elaborateAll (e :: es) =
      (do return (← e.elaborate none []) :: (← elaborateAll es)) := List.mapM_cons

theorem mapM_positions (es : List Expr) (first : Nat) (path : Path) :
    (Field.positions first es).mapM
        (Field.traverse fun name (e : Expr) => e.elaborate none (path ++ [name])) =
      (do return Field.positions first (← elaborateAll es)) := by
  induction es generalizing first with
  | nil => rfl
  | cons e es ih =>
    simp only [Field.positions, List.mapM_cons, Field.traverse, ih, elaborateAll_cons, bind_assoc,
      pure_bind]
    rw [elaborate_none_path e _ []]

/-- A tuple literal is elaborated to the tuple of what its elements are elaborated to, one after the
other. -/
theorem elaborate_positions (es : List Expr) (path : Path) :
    (ofFields (Field.positions 1 es)).elaborate none path =
      (do return (← RecordValue.tuple (← elaborateAll es)).value) := by
  have hfields : ((Field.positions 1 es).map FieldExpr.ofField).map FieldExpr.field =
      Field.positions 1 es := by simp [Function.comp_def, FieldExpr.ofField, FieldExpr.field]
  have hn : (((Field.positions 1 es).map FieldExpr.ofField).map FieldExpr.name).Nodup := by
    rw [← FieldExpr.names_field, hfields]
    exact Field.nodup_positions 1 es
  have hc := canonicalize_elaborateFields hn
  rw [hfields, (Field.ascending_positions 1 es).sorted_eq] at hc
  rw [ofFields, elaborate, recordValue_of_canonicalize hc]
  simp only [inferred_map, mapM_positions, bind_assoc, pure_bind, RecordValue.tuple,
    Field.ofFields_positions]

theorem exists_of_outcome_positions {es : List Expr} {v : Value} {g g' : Registry}
    (h : ((ofFields (Field.positions 1 es)).elaborate none []).outcome g = (.ok v, g')) :
    ∃ values g₁ r, (elaborateAll es).outcome g = (.ok values, g₁) ∧
      (RecordValue.tuple values).outcome g₁ = (r, g') ∧ v = r.value := by
  rw [elaborate_positions] at h
  obtain ⟨values, g₁, hvalues, hrest⟩ := outcome_bind_ok.1 h
  obtain ⟨r, g₂, hr, hp⟩ := outcome_bind_ok.1 hrest
  obtain ⟨rfl, rfl⟩ : r.value = v ∧ g₂ = g' := by simpa using hp
  exact ⟨values, g₁, r, hvalues, by simpa [Prod.ext_iff] using hr, rfl⟩

theorem distinct_positions {es : List Expr} (h : ∀ e ∈ es, e.Distinct) :
    (ofFields (Field.positions 1 es)).Distinct := by
  refine .record ?_ fun f hf => ?_
  · simpa [Function.comp_def, FieldExpr.ofField] using Field.nodup_positions 1 es
  · obtain ⟨x, hx, rfl⟩ := List.mem_map.1 hf
    exact h x.value (Field.value_mem_of_mem_positions hx)

theorem denotes_of_elaborateAll {es : List Expr} {values : List Value} {g g₁ g' : Registry}
    (hv : g.Valid) (h : (elaborateAll es).outcome g = (.ok values, g₁)) (hg : g₁.Grows g') :
    List.Forall₂ (fun e v => e.Denotes g' v) es values := by
  refine (forall₂_of_mapM (fun e _ => e.extends_elaborate []) h).imp ?_
  rintro e v ⟨g₂, g₃, hbefore, he, hbehind⟩
  exact denotes_of_inferred (hbefore.valid hv) he (hbehind.trans hg)

section

variable [Alphabet]

/-- In the tuple of what expressions are elaborated to, the lens of a position gets what the
expression at that position denotes, and sets this element alone. -/
theorem exists_lens_of_tuple {es : List Expr} {values : List Value} {g g₁ : Registry}
    (hv : g.Valid) (h : (elaborateAll es).outcome g = (.ok values, g₁))
    {r : RecordValue} {g' : Registry} (hr : (RecordValue.tuple values).outcome g₁ = (r, g'))
    {i : Nat} {e : Expr} (he : es[i]? = some e) (hi : i + 1 < FieldName.positionBound) :
    ∃ v l, values[i]? = some v ∧ e.Denotes g' v ∧
      Lens.read r.value.typeOf (toString (i + 1)) = .ok l ∧ l.get r.value = .ok v ∧
      ∀ leaf w, l.set r.value leaf = .ok w ↔
        v.typeOf.accepts leaf = true ∧ w = (r.replaceAt i leaf).value := by
  obtain ⟨hgrows, htypes, hvalues⟩ := RecordValue.outcome_tuple values g₁
  rw [hr] at hgrows htypes hvalues
  obtain ⟨v, hvi, hdenotes⟩ := exists_getElem?_of_forall₂ (denotes_of_elaborateAll hv h hgrows) he
  have hascending : Field.Ascending r.type.fields :=
    htypes ▸ (Field.ascending_positions 1 values).map Value.typeOf
  have hfield : r.type.fields[i]? = some ⟨.position (i + 1), v.typeOf⟩ := by
    rw [htypes, List.getElem?_map, Field.getElem?_positions, hvi, Nat.add_comm 1 i]
    rfl
  have hvalue : r.values[i]? = some v := by rw [hvalues, hvi]
  obtain ⟨l, hl, hget, hset⟩ := Lens.exists_read_name hascending hfield hvalue
    ⟨Nat.succ_pos i, hi⟩
  exact ⟨v, l, hvi, hdenotes, hl, hget, hset⟩

/-- The text is an expression that from one registry is elaborated to a value, with no type
expected, and leaves another registry. -/
def Elaborates (limit : Nat) (text : String) (g : Registry) (v : Value) (g' : Registry) : Prop :=
  ∃ e, Expr.read limit text = .ok e ∧ (e.elaborate none []).outcome g = (.ok v, g')

theorem exists_of_elaborates {limit : Nat} {texts : List String}
    (h : ∀ text ∈ texts, ∃ g v g', Elaborates limit text g v g') :
    ∃ es, List.Forall₂ (fun text e => Expr.read limit text = .ok e) texts es ∧
      ∀ e ∈ es, e.Distinct := by
  have hall : ∀ text ∈ texts, ∃ e, Expr.read limit text = .ok e ∧ e.Distinct := by
    intro text htext
    obtain ⟨g, v, g', e, hread, he⟩ := h text htext
    exact ⟨e, hread, distinct_of_inferred he⟩
  obtain ⟨es, hes⟩ := exists_forall₂_iff.2 hall
  refine ⟨es, hes.imp fun _ _ hte => hte.1, fun e he => ?_⟩
  obtain ⟨text, -, hdistinct⟩ := exists_forall₂_iff.1 ⟨texts, hes.flip⟩ e he
  exact hdistinct

/-- The text of a tuple, and that of a record with the same items behind their positions, are read
as rearrangements of one record. -/
theorem exists_read_rearranged {limit : Nat} {texts : List String} {es : List Expr}
    (hread : List.Forall₂ (fun text e => Expr.read limit text = .ok e) texts es)
    (hlength : 2 ≤ texts.length) {fields : List (UInt32 × String)}
    (horder : (byPosition fields).Perm (Field.positions 1 texts)) :
    (∃ d, Expr.read (limit + 1) (tupleText texts) = .ok d ∧
      (ofFields (Field.positions 1 es)).Rearranged d) ∧
    ∃ d, Expr.read (limit + 1) (recordText (byPosition fields)) = .ok d ∧
      (ofFields (Field.positions 1 es)).Rearranged d := by
  obtain ⟨xs, hxs, hperm⟩ := List.perm_comp_forall₂ horder (Field.forall₂_positions hread 1)
  constructor
  · obtain ⟨d, htext, hd⟩ := exists_read_tupleText hread hlength
    exact ⟨d, htext, rearranged_of_unplaced_eq hd.symm⟩
  · obtain ⟨d, htext, hd⟩ := exists_read_recordText hxs (Literal.legible_byPosition horder)
      (Literal.admissible_byPosition horder)
    have hfields : (ofFields xs).Rearranged d := rearranged_of_unplaced_eq hd.symm
    exact ⟨d, htext, hfields.of_perm (hperm.symm.map FieldExpr.ofField)⟩

/-- A tuple is a record whose fields are named by position. The items in parentheses, and the items
in braces behind their positions in any order, are elaborated from one registry to one value, with
one registry behind it: the tuple of what the items are elaborated to, one after the other. In this
value the lens that is read from a position gets what the item of that position was elaborated to,
which is what it is elaborated to from now on, and sets this element alone. -/
theorem tuples_named_by_position {g : Registry} (hg : g.Reachable) {limit : Nat}
    {texts : List String} (hlength : 2 ≤ texts.length)
    (h : ∀ text ∈ texts, ∃ g₀ v g₁, Elaborates limit text g₀ v g₁)
    {fields : List (UInt32 × String)}
    (horder : (byPosition fields).Perm (Field.positions 1 texts)) :
    ∃ r g', Elaborates (limit + 1) (tupleText texts) g r.value g' ∧
      Elaborates (limit + 1) (recordText (byPosition fields)) g r.value g' ∧
      ∃ es values g₁, List.Forall₂ (fun text e => Expr.read limit text = .ok e) texts es ∧
        (elaborateAll es).outcome g = (.ok values, g₁) ∧
        (RecordValue.tuple values).outcome g₁ = (r, g') ∧
        ∀ f ∈ fields, ∃ v l, values[f.1.toNat - 1]? = some v ∧ Elaborates limit f.2 g' v g' ∧
          Lens.read r.value.typeOf (toString f.1) = .ok l ∧ l.get r.value = .ok v ∧
          ∀ leaf w, l.set r.value leaf = .ok w ↔
            v.typeOf.accepts leaf = true ∧ w = (r.replaceAt (f.1.toNat - 1) leaf).value := by
  obtain ⟨es, hread, hdistinct⟩ := exists_of_elaborates h
  have htuple := distinct_positions hdistinct
  obtain ⟨v, g', hv⟩ := htuple.exists_outcome [] g
  obtain ⟨values, g₁, r, hvalues, hr, rfl⟩ := exists_of_outcome_positions hv
  have hsame {d : Expr} (hd : (ofFields (Field.positions 1 es)).Rearranged d) :
      (d.elaborate none []).outcome g = (.ok r.value, g') :=
    (agree_of_rearranged hd htuple none [] g).ok_right hv
  obtain ⟨⟨d, htext, hd⟩, d', htext', hd'⟩ := exists_read_rearranged hread hlength horder
  refine ⟨r, g', ⟨d, htext, hsame hd⟩, ⟨d', htext', hsame hd'⟩, es, values, g₁, hread, hvalues, hr,
    fun f hf => ?_⟩
  obtain ⟨i, hi, hposition⟩ := Literal.exists_index_of_mem horder hf
  obtain ⟨e, he, hreads⟩ := exists_getElem?_of_forall₂ hread hi
  have hbound : i + 1 < FieldName.positionBound := hposition ▸ f.1.toNat_lt
  obtain ⟨v, l, hvi, hdenotes, hl, hget, hset⟩ :=
    exists_lens_of_tuple hg.valid hvalues hr he hbound
  have hpath : toString f.1 = toString (i + 1) := congrArg toString hposition
  rw [hposition, Nat.add_sub_cancel, hpath]
  exact ⟨v, l, hvi, ⟨e, hreads, (hdenotes []).1⟩, hl, hget, hset⟩

end

def tenItems : List String :=
  ["'a'", "\x7bx = 'b'\x7d", "'c'", "'c'", "'c'", "'c'", "'c'", "'c'", "'c'", "'j'"]

def tenFields : List (UInt32 × String) :=
  [(10, "'j'"), (2, "\x7bx = 'b'\x7d"), (1, "'a'"), (3, "'c'"), (5, "'c'"), (7, "'c'"),
    (9, "'c'"), (8, "'c'"), (6, "'c'"), (4, "'c'")]

def letter (c : Char) : Expr := .scalar (.char c) ⟨⟨1, 1, 0⟩, 3⟩

def letterField : Expr :=
  .record ⟨[⟨.label "x", ⟨⟨1, 2, 1⟩, 1⟩, .scalar (.char 'b') ⟨⟨1, 6, 5⟩, 3⟩⟩], ⟨⟨1, 1, 0⟩, 9⟩⟩

theorem read_letters :
    Expr.read 63 "'a'" = .ok (letter 'a') ∧ Expr.read 63 "'c'" = .ok (letter 'c') ∧
      Expr.read 63 "'j'" = .ok (letter 'j') ∧
      Expr.read 63 "\x7bx = 'b'\x7d" = .ok letterField :=
  ⟨by decide +kernel, by decide +kernel, by decide +kernel, by decide +kernel⟩

theorem elaborates_tenItems :
    ∀ text ∈ tenItems, ∃ g₀ v g₁, Elaborates 63 text g₀ v g₁ := by
  obtain ⟨ha, hc, hj, hx⟩ := read_letters
  have hletter {text : String} {c : Char} (h : Expr.read 63 text = .ok (letter c)) :
      ∃ g₀ v g₁, Elaborates 63 text g₀ v g₁ := ⟨.empty .scratch, _, _, _, h, rfl⟩
  have hfield : ∃ g₀ v g₁, Elaborates 63 "\x7bx = 'b'\x7d" g₀ v g₁ := by
    have hdistinct : letterField.Distinct := .record (by decide) (by simpa using .scalar _ _)
    obtain ⟨v, g₁, hv⟩ := hdistinct.exists_outcome [] (.empty .scratch)
    exact ⟨_, v, g₁, _, hx, hv⟩
  simp only [tenItems, List.forall_mem_cons]
  exact ⟨hletter ha, hfield, hletter hc, hletter hc, hletter hc, hletter hc, hletter hc,
    hletter hc, hletter hc, hletter hj, by simp⟩

theorem perm_tenFields : (byPosition tenFields).Perm (Field.positions 1 tenItems) := by
  decide

/-- Ten items, with their positions in no order: the tenth is at `10`, and the second at `2`. -/
theorem tuples_named_by_position_ten :
    (Registry.empty (.registry 0)).Reachable ∧ 2 ≤ tenItems.length ∧
      (∀ text ∈ tenItems, ∃ g₀ v g₁, Elaborates 63 text g₀ v g₁) ∧
      (byPosition tenFields).Perm (Field.positions 1 tenItems) ∧
      ∃ (r : RecordValue) (g' : Registry),
        Elaborates usualNesting (tupleText tenItems) (.empty (.registry 0)) r.value g' ∧
        Elaborates usualNesting (recordText (byPosition tenFields)) (.empty (.registry 0))
          r.value g' ∧
        (∃ l, Lens.read r.value.typeOf "10" = .ok l ∧ l.get r.value = .ok (.scalar (.char 'j')) ∧
          l.set r.value (.scalar (.char 'k')) =
            .ok (r.replaceAt 9 (.scalar (.char 'k'))).value) ∧
        ∃ l type, Lens.read r.value.typeOf "2" = .ok l ∧
          l.get r.value = .ok (.record type [.scalar (.char 'b')]) := by
  have hreachable : (Registry.empty (.registry 0)).Reachable := ⟨.registry 0, [], rfl⟩
  obtain ⟨r, g', htuple, hrecord, _, _, _, -, -, -, hlenses⟩ :=
    tuples_named_by_position hreachable (by decide) elaborates_tenItems perm_tenFields
  obtain ⟨-, -, hj, hx⟩ := read_letters
  refine ⟨hreachable, by decide, elaborates_tenItems, perm_tenFields, r, g', htuple, hrecord, ?_,
    ?_⟩
  · obtain ⟨v, l, -, ⟨e, he, hv⟩, hl, hget, hset⟩ := hlenses (10, "'j'") (by decide)
    obtain rfl : letter 'j' = e := Except.ok.inj (hj.symm.trans he)
    obtain rfl : .scalar (.char 'j') = v := Except.ok.inj (Prod.mk.inj hv).1
    exact ⟨l, hl, hget, (hset _ _).2 ⟨Ty.accepts_iff.2 rfl, rfl⟩⟩
  · obtain ⟨v, l, -, ⟨e, he, hv⟩, hl, hget, -⟩ :=
      hlenses (2, "\x7bx = 'b'\x7d") (by decide)
    obtain rfl : letterField = e := Except.ok.inj (hx.symm.trans he)
    obtain rfl := Except.ok.inj (Prod.mk.inj hv).1
    exact ⟨l, _, hl, hget⟩

end Expr

end RecordLens
