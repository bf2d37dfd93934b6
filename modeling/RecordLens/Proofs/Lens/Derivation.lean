import RecordLens.Proofs.Lens.Composition
import RecordLens.Proofs.Path.Reading
import RecordLens.Proofs.Registry.Operations

/-! Where a path leads in a type, and where it leaves it. A lens is derived if every name of its
path is that of a field of the type which the names before it lead to; otherwise the error is about
the first name that is not, and says what the names before it lead to. -/

namespace RecordLens

namespace Ty

def HasField (t : Ty) (name : FieldName) (child : Ty) : Prop :=
  ∃ r : RecordType, t = r.ty ∧ ⟨name, child⟩ ∈ r.fields

/-- The names lead, each to a field of what the names before it lead to, from a type to a type. -/
inductive Follows : Ty → Path → Ty → Prop
  | here (t : Ty) : Follows t [] t
  | field {t child u : Ty} {name : FieldName} {path : Path} (hf : t.HasField name child)
      (h : Follows child path u) : Follows t (name :: path) u

/-- The name at that index is that of a field of the type which the names before it lead to. -/
def Resolves (t : Ty) (path : Path) (k : Nat) : Prop :=
  ∃ name u child, path[k]? = some name ∧ t.Follows (path.take k) u ∧ u.HasField name child

theorem Genuine.of_hasField {t child : Ty} {name : FieldName} (ht : t.Genuine)
    (h : t.HasField name child) : child.Genuine := by
  obtain ⟨r, rfl, hf⟩ := h
  exact ht.of_mem_fields hf

theorem hasField_of_child? {t child : Ty} {name : FieldName} {i : Nat}
    (h : t.child? name = some (i, child)) : t.HasField name child := by
  obtain ⟨r, f, rfl, hi, hf, rfl⟩ := child?_eq_some h
  obtain ⟨g, hg, rfl⟩ := Field.exists_of_index? hi
  obtain rfl : f = g := Option.some.inj (hf.symm.trans hg)
  exact ⟨r, rfl, List.mem_of_getElem? hf⟩

theorem HasField.exists_child? {t child : Ty} {name : FieldName} (ht : t.Genuine)
    (h : t.HasField name child) : ∃ i, t.child? name = some (i, child) := by
  obtain ⟨r, rfl, hf⟩ := h
  have hchild := Ty.exists_child? ht.ascending hf
  exact hchild

/-- A path is found where its names lead to a type, and it is found to lead there. -/
theorem follows_iff_resolve {t u : Ty} {path : Path} (ht : t.Genuine) :
    t.Follows path u ↔ ∃ steps, t.resolve path = .ok (steps, u) := by
  constructor
  · intro h
    induction h with
    | here t => exact ⟨[], rfl⟩
    | field hf _ ih =>
      obtain ⟨i, hi⟩ := hf.exists_child? ht
      obtain ⟨steps, hsteps⟩ := ih (ht.of_hasField hf)
      exact ⟨i :: steps, resolve_cons_ok.2 ⟨i, _, steps, hi, hsteps, rfl⟩⟩
  · rintro ⟨steps, h⟩
    induction path generalizing t steps with
    | nil =>
      obtain ⟨-, rfl⟩ := Prod.mk.inj (Except.ok.inj h)
      exact .here t
    | cons name path ih =>
      obtain ⟨i, child, rest, hi, hrest, -⟩ := resolve_cons_ok.1 h
      have hf := hasField_of_child? hi
      exact .field hf (ih (ht.of_hasField hf) rest hrest)

theorem Follows.unique {t u w : Ty} {path : Path} (ht : t.Genuine) (hu : t.Follows path u)
    (hw : t.Follows path w) : u = w := by
  obtain ⟨xs, hxs⟩ := (follows_iff_resolve ht).1 hu
  obtain ⟨ys, hys⟩ := (follows_iff_resolve ht).1 hw
  exact (Prod.mk.inj (Except.ok.inj (hxs.symm.trans hys))).2

theorem Follows.genuine {t u : Ty} {path : Path} (h : t.Follows path u) (ht : t.Genuine) :
    u.Genuine := by
  induction h with
  | here => exact ht
  | field hf _ ih => exact ih (ht.of_hasField hf)

theorem Follows.resolves {t u : Ty} {path : Path} (h : t.Follows path u) (more : Path) {k : Nat}
    (hk : k < path.length) : t.Resolves (path ++ more) k := by
  induction h generalizing k with
  | here => exact absurd hk (Nat.not_lt_zero k)
  | @field t child u name path hf _ ih =>
    cases k with
    | zero => exact ⟨name, t, child, rfl, .here t, hf⟩
    | succ k =>
      obtain ⟨next, v, grandchild, hnext, hv, hg⟩ := ih (Nat.lt_of_succ_lt_succ hk)
      exact ⟨next, v, grandchild, hnext, .field hf hv, hg⟩

theorem resolve_take_of_error {t : Ty} {path : Path} {u : Unresolved}
    (h : t.resolve path = .error u) :
    (∃ steps, t.resolve (path.take u.depth) = .ok (steps, u.ty)) ∧
      u.ty.child? u.segment = none := by
  induction path generalizing t u with
  | nil => cases h
  | cons name path ih =>
    rw [resolve] at h
    split at h
    · next hnone =>
      obtain rfl := Except.error.inj h
      exact ⟨⟨[], rfl⟩, hnone⟩
    · next i child hi =>
      split at h
      · next v hv =>
        obtain rfl := Except.error.inj h
        obtain ⟨⟨steps, hsteps⟩, hnone⟩ := ih hv
        exact ⟨⟨i :: steps, resolve_cons_ok.2 ⟨i, child, steps, hi, hsteps, rfl⟩⟩, hnone⟩
      · cases h

/-- The name that a path is not found for does not resolve, and all names before it do. -/
theorem first_of_resolve_error {t : Ty} {path : Path} {u : Unresolved} (ht : t.Genuine)
    (h : t.resolve path = .error u) :
    ¬t.Resolves path u.depth ∧ ∀ k < u.depth, t.Resolves path k := by
  obtain ⟨hsteps, hnone⟩ := resolve_take_of_error h
  have hfollows : t.Follows (path.take u.depth) u.ty := (follows_iff_resolve ht).2 hsteps
  have hsegment := getElem?_of_resolve_error h
  constructor
  · rintro ⟨name, w, child, hname, hw, hf⟩
    obtain rfl := Option.some.inj (hsegment.symm.trans hname)
    obtain rfl := hfollows.unique ht hw
    obtain ⟨i, hi⟩ := hf.exists_child? (hfollows.genuine ht)
    exact absurd (hnone.symm.trans hi) nofun
  · intro k hk
    have hlength : u.depth < path.length := (List.getElem?_eq_some_iff.1 hsegment).1
    have hresolves := hfollows.resolves (path.drop u.depth) (k := k)
    rw [List.take_append_drop, List.length_take] at hresolves
    exact hresolves (by omega)

end Ty

namespace Lens

variable {t : Ty} {p : Path}

theorem derivePath_eq_error_iff {e : UnknownField} :
    derivePath t p = .error e ↔
      ∃ u, t.resolve p = .error u ∧ e = ⟨u.ty, p, u.segment, u.depth, none⟩ := by
  rw [derivePath, deriveAt]
  cases t.resolve p with
  | error u => simp [eq_comm]
  | ok found => simp

/-- A path as written is derived like its names; an error is about the place of its segment. -/
theorem derive_eq_of_derivePath {q : PathExpr} :
    (∀ l, derivePath t q.path = .ok l → derive t q = .ok l) ∧
    ∀ e, derivePath t q.path = .error e →
      ∃ s, q[e.depth]? = some s ∧ s.name = e.segment ∧
        derive t q = .error { e with span := some s.span } := by
  constructor
  · intro l h
    obtain ⟨rfl, hpath, hr⟩ := derivePath_eq_ok_iff.1 h
    rw [derive, deriveAt, hr, ← hpath]
  · intro e h
    obtain ⟨u, hu, rfl⟩ := derivePath_eq_error_iff.1 h
    have hsegment := Ty.getElem?_of_resolve_error hu
    rw [PathExpr.path, List.getElem?_map, Option.map_eq_some_iff] at hsegment
    obtain ⟨s, hs, hname⟩ := hsegment
    have hspan : (q.map Segment.span)[u.depth]? = some s.span := by
      rw [List.getElem?_map, hs, Option.map_some]
    refine ⟨s, hs, hname, ?_⟩
    rw [derive, deriveAt, hu]
    simp only [hspan]

theorem read_of_read [Alphabet] {text : String} {q : PathExpr} (h : PathExpr.read text = .ok q) :
    Lens.read t text = (derive t q).mapError .unknown := by
  rw [Lens.read, h]
  rfl

theorem derive_eq_ok_iff {q : PathExpr} {l : Lens} :
    derive t q = .ok l ↔ derivePath t q.path = .ok l := by
  refine ⟨fun h => ?_, derive_eq_of_derivePath.1 l⟩
  cases hpath : derivePath t q.path with
  | ok m => exact (derive_eq_of_derivePath.1 m hpath).symm.trans h
  | error e =>
    obtain ⟨s, -, -, he⟩ := derive_eq_of_derivePath.2 e hpath
    exact absurd (he.symm.trans h) nofun

theorem read_eq_ok_iff [Alphabet] {text : String} {l : Lens} :
    Lens.read t text = .ok l ↔
      ∃ q, PathExpr.read text = .ok q ∧ derivePath t q.path = .ok l := by
  cases hread : PathExpr.read text with
  | error e => simp [Lens.read, hread, bind, Except.bind, Except.mapError]
  | ok q =>
    rw [read_of_read hread]
    cases hd : derive t q <;> simp [Except.mapError, ← derive_eq_ok_iff, hd]

theorem derivePath_ok_iff_resolves (ht : t.Genuine) :
    (∃ l, derivePath t p = .ok l) ↔ ∀ k < p.length, t.Resolves p k := by
  constructor
  · rintro ⟨l, h⟩ k hk
    obtain ⟨rfl, -, hr⟩ := derivePath_eq_ok_iff.1 h
    have hfollows : l.source.Follows p l.target := (Ty.follows_iff_resolve ht).2 ⟨_, hr⟩
    have hresolves := hfollows.resolves [] hk
    rwa [List.append_nil] at hresolves
  · intro hall
    cases h : derivePath t p with
    | ok l => exact ⟨l, rfl⟩
    | error e =>
      obtain ⟨u, hu, -⟩ := derivePath_eq_error_iff.1 h
      have hlt := (List.getElem?_eq_some_iff.1 (Ty.getElem?_of_resolve_error hu)).1
      exact absurd (hall u.depth hlt) (Ty.first_of_resolve_error ht hu).1

/-- A lens is derived from a path if every name of it is that of a field of the type which the names
before it lead to, and its target is what they all lead to. Otherwise the error is about the first
name that is not, after the names before it, which have a lens with the reported type as its target.
A path text is derived as the path that is read from it, and an error is about the place in the text
where the unknown name stands. -/
theorem derived_or_first_unresolved [Alphabet] (ht : t.Genuine) (p : Path) :
    ((∃ l, derivePath t p = .ok l) ↔ ∀ k < p.length, t.Resolves p k) ∧
    (∀ l, derivePath t p = .ok l →
      l.source = t ∧ l.path = p ∧ ∀ u, t.Follows p u ↔ u = l.target) ∧
    (∀ e, derivePath t p = .error e →
      ¬t.Resolves p e.depth ∧ (∀ k < e.depth, t.Resolves p k) ∧ p[e.depth]? = some e.segment ∧
      e.path = p ∧ e.resolved = p.take e.depth ∧ e.span = none ∧
      ∃ l, derivePath t e.resolved = .ok l ∧ l.target = e.ty) ∧
    ∀ text,
      (∀ e, PathExpr.read text = .error e → Lens.read t text = .error (.malformed e)) ∧
      ∀ q, PathExpr.read text = .ok q →
        (∀ l, derivePath t q.path = .ok l → Lens.read t text = .ok l) ∧
        ∀ e, derivePath t q.path = .error e → ∃ s, q[e.depth]? = some s ∧
          Lens.read t text = .error (.unknown { e with span := some s.span }) ∧
          Text.slice? s.span.offset s.span.length text.toList = some e.segment.text.toList := by
  refine ⟨derivePath_ok_iff_resolves ht, fun l h => ?_, fun e h => ?_, fun text => ⟨fun e h => ?_,
    fun q hread => ⟨fun l h => ?_, fun e h => ?_⟩⟩⟩
  · obtain ⟨rfl, hpath, hr⟩ := derivePath_eq_ok_iff.1 h
    have hfollows : l.source.Follows p l.target := (Ty.follows_iff_resolve ht).2 ⟨_, hr⟩
    exact ⟨rfl, hpath, fun u => ⟨fun hu => hu.unique ht hfollows, fun hu => hu ▸ hfollows⟩⟩
  · obtain ⟨u, hu, rfl⟩ := derivePath_eq_error_iff.1 h
    obtain ⟨hfails, hearlier⟩ := Ty.first_of_resolve_error ht hu
    obtain ⟨⟨steps, hsteps⟩, -⟩ := Ty.resolve_take_of_error hu
    refine ⟨hfails, hearlier, Ty.getElem?_of_resolve_error hu, rfl, rfl, rfl, ?_⟩
    exact ⟨⟨t, u.ty, p.take u.depth, steps⟩, derivePath_eq_ok_iff.2 ⟨rfl, rfl, hsteps⟩, rfl⟩
  · rw [Lens.read, h]
    rfl
  · rw [read_of_read hread, derive_eq_of_derivePath.1 l h]
    rfl
  · obtain ⟨s, hs, hname, hderive⟩ := derive_eq_of_derivePath.2 e h
    have hspelled : q.Spelled text.toList := (hread ▸ PathExpr.located_read text).of_ok
    have hmarks := hspelled s (List.mem_of_getElem? hs)
    rw [read_of_read hread, hderive, ← hname]
    exact ⟨s, hs, rfl, hmarks.slice?_eq⟩

theorem genuine_personType : personType.ty.Genuine := by
  intro r hr
  refine ⟨_, ⟨.registry 0, [.structType dateType.fields, .structType personType.fields], rfl⟩, ?_⟩
  obtain rfl | rfl : r = personType ∨ r = dateType := by
    simpa [Ty.handles_ty, personType, dateType] using hr
  · decide
  · decide

/-- The way to the decade of a birthday ends behind the birthday, at a date. -/
theorem derived_or_first_unresolved_decade :
    personType.ty.Genuine ∧
      (∃ e, derivePath personType.ty [.label "birthday", .label "decade", .position 1] = .error e ∧
        e.depth = 1 ∧ ¬personType.ty.Resolves [.label "birthday", .label "decade", .position 1] 1 ∧
        ∃ l, derivePath personType.ty [.label "birthday"] = .ok l ∧ l.target = dateType.ty) ∧
      ∃ e s, Lens.read personType.ty " birthday.decade.1" = .error (.unknown e) ∧
        e.span = some s ∧
        Text.slice? s.offset s.length " birthday.decade.1".toList = some "decade".toList := by
  let e : UnknownField := ⟨dateType.ty, [.label "birthday", .label "decade", .position 1],
    .label "decade", 1, none⟩
  let q : PathExpr := [⟨.label "birthday", ⟨⟨1, 2, 1⟩, 8⟩⟩, ⟨.label "decade", ⟨⟨1, 11, 10⟩, 6⟩⟩,
    ⟨.position 1, ⟨⟨1, 18, 17⟩, 1⟩⟩]
  have he : derivePath personType.ty e.path = .error e := rfl
  have hread : PathExpr.read " birthday.decade.1" = .ok q := by decide +kernel
  obtain ⟨-, -, hfails, htext⟩ := derived_or_first_unresolved genuine_personType e.path
  obtain ⟨hunresolved, -, -, -, -, -, hprefix⟩ := hfails e he
  obtain ⟨s, -, hlens, hslice⟩ := (htext " birthday.decade.1").2 q hread |>.2 e he
  exact ⟨genuine_personType, ⟨e, he, rfl, hunresolved, hprefix⟩, _, s.span, hlens, rfl, hslice⟩

end Lens

end RecordLens
