import RecordLens.Proofs.Elaboration.Conformance
import RecordLens.Proofs.Lens.Laws
import RecordLens.Proofs.Value.Denotation

/-! Inference and checking. A literal that is inferred or checked denotes its value from then on, in
the registry that holds its types. So both ways lead to one value, unless checking turns an integer
into a double. -/

namespace RecordLens

theorem RecordValue.fields_ofCanonical (ys : List (Field Value)) (g : Registry) :
    ((ofCanonical ys).outcome g).1.fields = ys := by
  obtain ⟨htypes, hvalues⟩ := outcome_ofCanonical ys g
  rw [fields, RecordType.names, htypes, hvalues, List.map_map, List.zipWith_map, List.zipWith_self]
  exact List.map_id ys

namespace Expr

open Elaboration

/-- No integer of the expression is at a place where the type has a double. -/
def KeepsIntegers (e : Expr) (t : Ty) : Prop :=
  ∀ path i, e.Leaf path (.int i) → ∀ steps, t.resolve path ≠ .ok (steps, .primitive .double)

theorem keepsIntegers_scalar {s : Scalar} {span : Span} {t : Ty} (h : t ≠ .primitive .double) :
    (scalar s span).KeepsIntegers t := by
  rintro _ i ⟨⟩ steps hsteps
  exact h (Prod.mk.inj (Except.ok.inj hsteps)).2

theorem keepsIntegers_record_iff {fields : List (FieldExpr Expr)} {span : Span} {r : RecordType}
    (ha : Field.Ascending r.fields) :
    (record ⟨fields, span⟩).KeepsIntegers r.ty ↔ ∀ f ∈ fields, ∀ declared ∈ r.fields,
      declared.name = f.name → f.item.KeepsIntegers declared.value := by
  constructor
  · intro h f hf declared hd same path i hleaf steps hsteps
    obtain ⟨index, hindex⟩ := Ty.exists_child? ha hd
    have hresolve : r.ty.resolve (f.name :: path) = .ok (index :: steps, .primitive .double) :=
      Ty.resolve_cons_ok.2 ⟨index, declared.value, steps, same ▸ hindex, hsteps, rfl⟩
    exact h (f.name :: path) i (.field hf hleaf) (index :: steps) hresolve
  · rintro h _ i (_ | @⟨_, _, f, path, _, hf, hleaf⟩) steps hsteps
    obtain ⟨index, child, rest, hchild, hrest, -⟩ := Ty.resolve_cons_ok.1 hsteps
    obtain ⟨s, declared, hs, hindex, hd, rfl⟩ := Ty.child?_eq_some hchild
    obtain rfl := RecordType.ty_injective hs
    obtain ⟨d, hd', same⟩ := Field.exists_of_index? hindex
    obtain rfl : d = declared := Option.some.inj (hd'.symm.trans hd)
    exact h f hf d (List.mem_of_getElem? hd) same path i hleaf rest hrest

theorem Denotes.unique {e : Expr} {g : Registry} {v w : Value} (hv : e.Denotes g v)
    (hw : e.Denotes g w) : v = w := by
  have h := (hv []).1.symm.trans (hw []).1
  exact Except.ok.inj (Prod.mk.inj h).1

theorem forall₂_of_inferred {xs : List (Field Expr)} (ha : Field.Ascending xs) {path : Path}
    {r : RecordValue} {g g' : Registry}
    (h : (inferred (xs.map (Field.map elaborate)) path).outcome g = (.ok r, g')) :
    g'.Holds r.type ∧ List.Forall₂ (fun x y => y.name = x.name ∧ ∃ g₁ g₂, g.Grows g₁ ∧
      (x.value.elaborate none (path ++ [x.name])).outcome g₁ = (.ok y.value, g₂) ∧
      g₂.Grows g') xs r.fields := by
  rw [inferred_map] at h
  obtain ⟨ys, g₁, hys, hr⟩ := outcome_bind_ok.1 h
  obtain ⟨rfl, rfl⟩ : ((RecordValue.ofCanonical ys).outcome g₁).1 = r ∧
      ((RecordValue.ofCanonical ys).outcome g₁).2 = g' := by simpa using hr
  have hnames : ys.map Field.name = xs.map Field.name := names_of_mapM_traverse hys
  have hentered : Field.Ascending (ys.map (Field.map Value.typeOf)) :=
    (ha.of_names_eq hnames).map Value.typeOf
  have hg : g₁.Grows ((RecordValue.ofCanonical ys).outcome g₁).2 := .intern .refl hentered
  refine ⟨Registry.holds_intern _ g₁, ?_⟩
  rw [RecordValue.fields_ofCanonical]
  have hextends : ∀ x ∈ xs, (x.traverse fun name (e : Expr) =>
      e.elaborate none (path ++ [name])).Extends :=
    fun x _ => .traverse (x.value.extends_elaborate _)
  refine (forall₂_of_mapM hextends hys).imp ?_
  rintro x y ⟨g₂, g₃, hbefore, hxy, hbehind⟩
  obtain ⟨hname, hvalue⟩ := outcome_traverse.1 hxy
  exact ⟨hname, g₂, g₃, hbefore, hvalue, hbehind.trans hg⟩

/-- What is inferred for an expression it denotes, and goes on to denote. -/
theorem denotes_of_inferred {e : Expr} {path : Path} {v : Value} {g g' : Registry} (hv : g.Valid)
    (h : (e.elaborate none path).outcome g = (.ok v, g')) {g'' : Registry}
    (hg : g'.Grows g'') : e.Denotes g'' v := by
  induction e using Expr.induction generalizing path v g g' with
  | scalar s span =>
    obtain ⟨rfl⟩ : .scalar s = v := by
      have := (outcome_ofExcept_ok.1 h).1
      simpa [Scalar.elaborate] using this
    exact denotes_scalar s span g''
  | record fields span ih =>
    have hvalid : g''.Valid :=
      hg.valid ((((record ⟨fields, span⟩).extends_elaborate path).grows h).valid hv)
    obtain ⟨hwell, -⟩ := typed_elaborate _ h
    rw [elaborate] at h
    obtain ⟨r, g₁, hr, hp⟩ := outcome_bind_ok.1 h
    obtain ⟨rfl, rfl⟩ : r.value = v ∧ g₁ = g' := by simpa using hp
    rcases canonicalize_elaborateFields_cases fields with ⟨clash, hc⟩ | ⟨hn, hc⟩
    · rw [recordValue_of_clash hc] at hr
      cases hr
    · rw [recordValue_of_canonicalize hc] at hr
      have ha : Field.Ascending (Field.sorted (fields.map FieldExpr.field)) :=
        Field.ascending_sorted ((FieldExpr.names_field fields).symm ▸ hn)
      obtain ⟨hholds, hfields⟩ := forall₂_of_inferred ha hr
      refine denotes_of_sorted hvalid (hg.holds hholds) hwell span ?_
      refine (forall₂_imp_mem hfields ?_).flip
      rintro x hx y ⟨hname, g₂, g₃, hbefore, hxy, hbehind⟩
      obtain ⟨f, hf, rfl⟩ := List.mem_map.1 (Field.mem_sorted.1 hx)
      exact ⟨hname.symm, ih f hf (hbefore.valid hv) hxy (hbehind.trans hg)⟩

theorem forall₂_fields {R : Field Expr × Field Ty → Value → Prop} {xs : List (Field Expr)}
    {types : List (Field Ty)} (hn : types.map Field.name = xs.map Field.name) {values : List Value}
    (h : List.Forall₂ R (xs.zip types) values) :
    List.Forall₂ (fun x y => y.name = x.name ∧ ∃ declared, R (x, declared) y.value) xs
      ((types.map Field.name).zipWith Field.mk values) := by
  induction xs generalizing types values with
  | nil =>
    obtain rfl : types = [] := by simpa using hn
    exact .nil
  | cons x xs ih =>
    cases types with
    | nil => simp at hn
    | cons declared types =>
      obtain ⟨hname, hrest⟩ := List.cons.inj hn
      cases h with
      | cons hv hall => exact .cons ⟨hname, declared, hv⟩ (ih hrest hall)

/-- What is checked at a type that the registry holds is denoted there too, if no integer becomes a
double. -/
theorem denotes_of_checked {e : Expr} {t : Ty} {path : Path} {w : Value} {g g' : Registry}
    (hv : g.Valid) (ht : t.Within g) (hk : e.KeepsIntegers t)
    (h : (e.elaborate (some t) path).outcome g = (.ok w, g')) : e.Denotes g w := by
  induction e using Expr.induction generalizing t path w g' with
  | scalar s span =>
    have hs := Scalar.elaborate_ok_iff.1 (outcome_ofExcept_ok.1 h).1
    rcases Scalar.at?_eq_some.1 hs with ⟨-, rfl⟩ | ⟨i, rfl, rfl, -⟩
    · exact denotes_scalar s span g
    · exact absurd rfl (hk [] i (.here _ span) [])
  | record fields span ih =>
    obtain ⟨hwell, -⟩ := typed_elaborate _ h
    obtain ⟨rfl, hn, r, rfl, rfl, hr, hall⟩ := outcome_record_ok_iff.1 h
    have ha : Field.Ascending r.type.fields := hv.ascending_of_holds ht.holds
    refine denotes_of_sorted hv ht.holds hwell span ?_
    have hpairs := forall₂_imp_mem hall fun p hp v hpv => And.intro hp hpv
    refine (forall₂_imp_mem (forall₂_fields hr hpairs) ?_).flip
    rintro x hx y ⟨hname, declared, hp, hxy⟩
    obtain ⟨-, hd, same⟩ := (mem_paired_iff hr ha).1 hp
    obtain ⟨f, hf, rfl⟩ := List.mem_map.1 (Field.mem_sorted.1 hx)
    have hkeeps : f.item.KeepsIntegers declared.value :=
      (keepsIntegers_record_iff ha).1 hk f hf declared hd same
    exact ⟨hname.symm, ih f hf (ht.of_mem_fields hd) hkeeps hxy⟩

/-- What is inferred for a record literal is found again when the type of it is expected. Any other
type of the registry is refused, as long as no integer becomes a double. -/
theorem checked_agrees_with_inferred {g g' : Registry} (hg : g.Reachable) {l : RecordExpr Expr}
    {v : RecordValue} (h : (elaborateRecord l none).outcome g = (.ok v, g')) :
    (elaborateRecord l (some v.type)).outcome g' = (.ok v, g') ∧
      ∀ r w g'', r.ty.Within g' → (elaborateRecord l (some r)).outcome g' = (.ok w, g'') →
        (record l).KeepsIntegers r.ty → r = v.type ∧ w = v := by
  have hinferred : ((record l).elaborate none []).outcome g = (.ok v.value, g') :=
    outcome_record_iff.2 h
  have hdenotes : (record l).Denotes g' v.value := denotes_of_inferred hg.valid hinferred .refl
  constructor
  · exact outcome_record_iff.1 (hdenotes []).2
  · intro r w g'' hr hw hk
    have hchecked : ((record l).elaborate (some r.ty) []).outcome g' = (.ok w.value, g'') :=
      outcome_record_iff.2 hw
    have hvalid : g'.Valid := (((record l).extends_elaborate []).grows hinferred).valid hg.valid
    have hsame : w.value = v.value :=
      (denotes_of_checked hvalid hr hk hchecked).unique hdenotes
    obtain rfl : w = v := RecordValue.value_injective hsame
    exact ⟨((typed_elaborateRecord hw).2 r rfl).symm, rfl⟩

def foundSize : RecordType :=
  ⟨.registry 0, 0, [⟨.position 1, .primitive .int⟩, ⟨.position 2, .primitive .string⟩]⟩

def foundBox : RecordType :=
  ⟨.registry 0, 1, [⟨.label "name", .primitive .string⟩, ⟨.label "size", foundSize.ty⟩]⟩

def foundBoxValue : RecordValue where
  type := foundBox
  values := [.scalar (.string "A4"),
    .record foundSize [.scalar (.int (-3)), .scalar (.string "cm")]]

def foundRegistry : Registry := ⟨.registry 0, [foundSize.fields, foundBox.fields]⟩

theorem within_foundBox : foundBox.ty.Within foundRegistry := by
  have hprimitive (p : Primitive) : (Ty.primitive p).Within foundRegistry := .named nofun
  have hsize : foundSize.ty.Within foundRegistry := by
    refine .record (by decide) ?_
    simpa [foundSize] using ⟨hprimitive .int, hprimitive .string⟩
  refine .record (by decide) ?_
  simpa [foundBox] using ⟨hprimitive .string, hsize⟩

theorem valid_foundRegistry : foundRegistry.Valid :=
  Registry.Reachable.valid ⟨.registry 0, [.elaborateRecordValue boxExpr none], rfl⟩

theorem keepsIntegers_foundBox : (record boxExpr).KeepsIntegers foundBox.ty := by
  have hint : Ty.primitive .int ≠ .primitive .double := by decide
  have hstring : Ty.primitive .string ≠ .primitive .double := by decide
  have hsize : (record ⟨[⟨.position 1, default, .scalar (.int (-3)) default⟩,
      ⟨.position 2, default, .scalar (.string "cm") default⟩], default⟩).KeepsIntegers
      foundSize.ty := by
    rw [keepsIntegers_record_iff (valid_foundRegistry.ascending_of_holds (by decide))]
    simpa [foundSize] using ⟨keepsIntegers_scalar hint, keepsIntegers_scalar hstring⟩
  rw [boxExpr, keepsIntegers_record_iff (valid_foundRegistry.ascending_of_holds (by decide))]
  simpa [foundBox] using ⟨hsize, keepsIntegers_scalar hstring⟩

/-- The box literal is inferred to be of a type at which it is checked again. -/
theorem checked_agrees_with_inferred_box :
    (Registry.empty (.registry 0)).Reachable ∧
      (elaborateRecord boxExpr none).outcome (.empty (.registry 0)) =
        (.ok foundBoxValue, foundRegistry) ∧
      foundBox.ty.Within foundRegistry ∧ (record boxExpr).KeepsIntegers foundBox.ty ∧
      (elaborateRecord boxExpr (some foundBox)).outcome foundRegistry =
        (.ok foundBoxValue, foundRegistry) ∧
      ∀ r w g'', r.ty.Within foundRegistry →
        (elaborateRecord boxExpr (some r)).outcome foundRegistry = (.ok w, g'') →
        (record boxExpr).KeepsIntegers r.ty → r = foundBox ∧ w = foundBoxValue := by
  have hreachable : (Registry.empty (.registry 0)).Reachable := ⟨.registry 0, [], rfl⟩
  have hinferred : (elaborateRecord boxExpr none).outcome (.empty (.registry 0)) =
      (.ok foundBoxValue, foundRegistry) := by
    rfl
  obtain ⟨hagain, honly⟩ := checked_agrees_with_inferred hreachable hinferred
  exact ⟨hreachable, hinferred, within_foundBox, keepsIntegers_foundBox, hagain, honly⟩

end Expr

end RecordLens
