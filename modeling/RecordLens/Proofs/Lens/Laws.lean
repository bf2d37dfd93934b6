import RecordLens.Lens
import RecordLens.Proofs.Field.Lookup
import RecordLens.Proofs.Value.WellTyped
import RecordLens.Text.Unicode

/-! The laws of lenses. The steps of every lens lead from its source type to its target type, and
along such steps reading and replacing succeed on well-typed values and undo each other. -/

namespace RecordLens

/-- From a type the steps lead through the fields of record types to a type. -/
inductive Leads : Ty → List Nat → Ty → Prop
  | here (t : Ty) : Leads t [] t
  | down {r : RecordType} {i : Nat} {f : Field Ty} {steps : List Nat} {t : Ty}
      (hf : r.fields[i]? = some f) (h : Leads f.value steps t) : Leads r.ty (i :: steps) t

namespace Ty

theorem child?_eq_some {t u : Ty} {name : FieldName} {i : Nat}
    (h : t.child? name = some (i, u)) :
    ∃ (r : RecordType) (f : Field Ty), t = r.ty ∧ r.index? name = some i ∧
      r.fields[i]? = some f ∧ f.value = u := by
  simp only [child?, Option.bind_eq_bind, Option.bind_eq_some_iff, Option.pure_def,
    Option.some.injEq, Prod.mk.injEq] at h
  obtain ⟨r, hr, j, hj, f, hf, rfl, hu⟩ := h
  exact ⟨r, f, eq_ty_of_recordType? hr, hj, hf, hu⟩

theorem exists_child? {r : RecordType} (ha : Field.Ascending r.fields) {f : Field Ty}
    (hf : f ∈ r.fields) : ∃ i, r.ty.child? f.name = some (i, f.value) := by
  obtain ⟨i, hi⟩ := List.mem_iff_getElem?.1 hf
  have hindex : r.index? f.name = some i := (Field.index?_eq_some_iff ha).2 ⟨f, hi, rfl⟩
  exact ⟨i, by simp [child?, hindex, hi]⟩

theorem resolve_cons_ok {t u : Ty} {name : FieldName} {path : Path} {steps : List Nat} :
    t.resolve (name :: path) = .ok (steps, u) ↔
      ∃ i child rest, t.child? name = some (i, child) ∧ child.resolve path = .ok (rest, u) ∧
        steps = i :: rest := by
  rw [resolve]
  constructor
  · intro h
    split at h
    · cases h
    · next i child hc =>
      split at h
      · cases h
      · next rest target hr =>
        obtain ⟨rfl, rfl⟩ := Prod.mk.inj (Except.ok.inj h)
        exact ⟨i, child, rest, hc, hr, rfl⟩
  · rintro ⟨i, child, rest, hc, hr, rfl⟩
    simp [hc, hr]

theorem getElem?_of_resolve_error {t : Ty} {path : Path} {u : Unresolved}
    (h : t.resolve path = .error u) : path[u.depth]? = some u.segment := by
  induction path generalizing t u with
  | nil => cases h
  | cons name path ih =>
    rw [resolve] at h
    split at h
    · obtain rfl := Except.error.inj h
      rfl
    · split at h
      · next u' hu =>
        obtain rfl := Except.error.inj h
        exact ih hu
      · cases h

theorem leads_of_resolve {t u : Ty} {path : Path} {steps : List Nat}
    (h : t.resolve path = .ok (steps, u)) : Leads t steps u := by
  induction path generalizing t steps with
  | nil =>
    obtain ⟨rfl, rfl⟩ := Prod.mk.inj (Except.ok.inj h)
    exact .here t
  | cons name path ih =>
    obtain ⟨i, child, rest, hc, hr, rfl⟩ := resolve_cons_ok.1 h
    obtain ⟨r, f, rfl, -, hf, rfl⟩ := child?_eq_some hc
    exact .down hf (ih hr)

theorem resolve_append {t u w : Ty} {p q : Path} {xs ys : List Nat}
    (h : t.resolve p = .ok (xs, u)) (k : u.resolve q = .ok (ys, w)) :
    t.resolve (p ++ q) = .ok (xs ++ ys, w) := by
  induction p generalizing t xs with
  | nil =>
    obtain ⟨rfl, rfl⟩ := Prod.mk.inj (Except.ok.inj h)
    exact k
  | cons name p ih =>
    obtain ⟨i, child, rest, hc, hr, rfl⟩ := resolve_cons_ok.1 h
    exact resolve_cons_ok.2 ⟨i, child, rest ++ ys, hc, ih hr, rfl⟩

end Ty

namespace Lens

/-- The lenses that can be had: those of paths, the identities, and what is composed of them. -/
inductive Built [Alphabet] : Lens → Prop
  | derive {t : Ty} {p : PathExpr} {l : Lens} : Lens.derive t p = .ok l → Built l
  | derivePath {t : Ty} {p : Path} {l : Lens} : Lens.derivePath t p = .ok l → Built l
  | read {t : Ty} {text : String} {l : Lens} : Lens.read t text = .ok l → Built l
  | identity (t : Ty) : Built (Lens.identity t)
  | compose {outer inner l : Lens} :
      Built outer → Built inner → outer.compose inner = .ok l → Built l

theorem deriveAt_ok {t : Ty} {p : Path} {spans : List Span} {l : Lens}
    (h : deriveAt t p spans = .ok l) :
    l.source = t ∧ l.path = p ∧ t.resolve p = .ok (l.steps, l.target) := by
  rw [deriveAt] at h
  split at h
  · cases h
  · next steps target hr =>
    obtain rfl := Except.ok.inj h
    exact ⟨rfl, rfl, hr⟩

theorem read_ok [Alphabet] {t : Ty} {text : String} {l : Lens} (h : Lens.read t text = .ok l) :
    ∃ p, Lens.derive t p = .ok l := by
  rw [Lens.read] at h
  cases hp : PathExpr.read text with
  | error e =>
    rw [hp] at h
    cases h
  | ok p =>
    rw [hp] at h
    have hderive : (Lens.derive t p).mapError Error.unknown = .ok l := h
    cases hd : Lens.derive t p with
    | error e =>
      rw [hd] at hderive
      cases hderive
    | ok m =>
      rw [hd] at hderive
      obtain rfl := Except.ok.inj hderive
      exact ⟨p, hd⟩

theorem compose_ok {outer inner l : Lens} :
    outer.compose inner = .ok l ↔ outer.target = inner.source ∧
      l = ⟨outer.source, inner.target, outer.path ++ inner.path, outer.steps ++ inner.steps⟩ := by
  rw [compose]
  split <;> simp_all [eq_comm]

/-- The steps and the target of a lens are those of its path. -/
theorem Built.resolve [Alphabet] {l : Lens} (h : l.Built) :
    l.source.resolve l.path = .ok (l.steps, l.target) := by
  have derived {t : Ty} {p : PathExpr} {l : Lens} (hd : Lens.derive t p = .ok l) :
      l.source.resolve l.path = .ok (l.steps, l.target) := by
    obtain ⟨hs, hp, hr⟩ := deriveAt_ok hd
    rw [hs, hp, hr]
  induction h with
  | derive hd => exact derived hd
  | derivePath hd =>
    obtain ⟨hs, hp, hr⟩ := deriveAt_ok hd
    rw [hs, hp, hr]
  | read hd =>
    obtain ⟨p, hd⟩ := read_ok hd
    exact derived hd
  | identity t => rfl
  | compose _ _ hc ihOuter ihInner =>
    obtain ⟨ht, rfl⟩ := compose_ok.1 hc
    exact Ty.resolve_append ihOuter (ht ▸ ihInner)

theorem Built.leads [Alphabet] {l : Lens} (h : l.Built) : Leads l.source l.steps l.target :=
  Ty.leads_of_resolve h.resolve

theorem descend_cons {v leaf : Value} {i : Nat} {steps : List Nat} :
    descend v (i :: steps) = some leaf ↔
      ∃ r values child, v = .record r values ∧ values[i]? = some child ∧
        descend child steps = some leaf := by
  cases v with
  | scalar s => simp [descend, Value.record?]
  | record r values =>
    simp only [descend, Value.record?, Option.bind_eq_bind, Option.bind_some,
      Option.bind_eq_some_iff, Value.record.injEq]
    constructor
    · rintro ⟨child, hc, hd⟩
      exact ⟨r, values, child, ⟨rfl, rfl⟩, hc, hd⟩
    · rintro ⟨_, _, child, ⟨rfl, rfl⟩, hc, hd⟩
      exact ⟨child, hc, hd⟩

theorem replace_cons {v leaf v' : Value} {i : Nat} {steps : List Nat} :
    replace v (i :: steps) leaf = some v' ↔
      ∃ r values child child', v = .record r values ∧ values[i]? = some child ∧
        replace child steps leaf = some child' ∧ v' = .record r (values.set i child') := by
  cases v with
  | scalar s => simp [replace, Value.record?]
  | record r values =>
    simp only [replace, Value.record?, Option.bind_eq_bind, Option.bind_some, Option.pure_def,
      Option.bind_eq_some_iff, Value.record.injEq, Option.some.injEq]
    constructor
    · rintro ⟨child, hc, child', hr, rfl⟩
      exact ⟨r, values, child, child', ⟨rfl, rfl⟩, hc, hr, rfl⟩
    · rintro ⟨_, _, child, child', ⟨rfl, rfl⟩, hc, hr, rfl⟩
      exact ⟨child, hc, child', hr, rfl⟩

theorem replace_record {r : RecordType} {values : List Value} {i : Nat} {child : Value}
    (hc : values[i]? = some child) (steps : List Nat) (leaf : Value) :
    replace (.record r values) (i :: steps) leaf =
      (replace child steps leaf).map fun c => .record r (values.set i c) := by
  apply Option.ext
  intro w
  rw [Option.map_eq_some_iff, replace_cons]
  constructor
  · rintro ⟨_, _, c, c', hv, hcc, hr, rfl⟩
    obtain ⟨rfl, rfl⟩ := Value.record.inj hv
    obtain rfl : child = c := Option.some.inj (hc.symm.trans hcc)
    exact ⟨c', hr, rfl⟩
  · rintro ⟨c', hr, rfl⟩
    exact ⟨r, values, child, c', rfl, hc, hr, rfl⟩

theorem getElem?_set_of_getElem? {values : List Value} {i : Nat} {child : Value}
    (hc : values[i]? = some child) (c : Value) : (values.set i c)[i]? = some c := by
  have hi : i < values.length := (List.getElem?_eq_some_iff.1 hc).1
  simp [hi]

theorem descend_replace {v v' leaf : Value} {steps : List Nat}
    (h : replace v steps leaf = some v') : descend v' steps = some leaf := by
  induction steps generalizing v v' with
  | nil =>
    obtain rfl := Option.some.inj h
    rfl
  | cons i steps ih =>
    obtain ⟨r, values, child, child', rfl, hc, hr, rfl⟩ := replace_cons.1 h
    exact descend_cons.2 ⟨r, _, child', rfl, getElem?_set_of_getElem? hc child', ih hr⟩

theorem replace_descend {v leaf : Value} {steps : List Nat}
    (h : descend v steps = some leaf) : replace v steps leaf = some v := by
  induction steps generalizing v with
  | nil =>
    obtain rfl := Option.some.inj h
    rfl
  | cons i steps ih =>
    obtain ⟨r, values, child, rfl, hc, hd⟩ := descend_cons.1 h
    obtain ⟨hi, hget⟩ := List.getElem?_eq_some_iff.1 hc
    have hset : values.set i child = values := by rw [← hget, List.set_getElem_self]
    rw [replace_record hc, ih hd, Option.map_some, hset]

theorem replace_replace {v v' a b : Value} {steps : List Nat}
    (h : replace v steps a = some v') : replace v' steps b = replace v steps b := by
  induction steps generalizing v v' with
  | nil => rfl
  | cons i steps ih =>
    obtain ⟨r, values, child, child', rfl, hc, hr, rfl⟩ := replace_cons.1 h
    have hset (c : Value) : (values.set i child').set i c = values.set i c := List.set_set _
    rw [replace_record (getElem?_set_of_getElem? hc child'), replace_record hc, ih hr]
    simp only [hset]

theorem descend_append {v leaf : Value} {xs ys : List Nat} :
    descend v (xs ++ ys) = some leaf ↔
      ∃ m, descend v xs = some m ∧ descend m ys = some leaf := by
  induction xs generalizing v with
  | nil => simp [descend]
  | cons i xs ih =>
    simp only [List.cons_append, descend_cons, ih]
    constructor
    · rintro ⟨r, values, child, rfl, hc, m, hm, hleaf⟩
      exact ⟨m, ⟨r, values, child, rfl, hc, hm⟩, hleaf⟩
    · rintro ⟨m, ⟨r, values, child, rfl, hc, hm⟩, hleaf⟩
      exact ⟨r, values, child, rfl, hc, m, hm, hleaf⟩

/-- What is replaced at the end of steps in a row is replaced in the value between, and this in the
whole. -/
theorem replace_append {v leaf w : Value} {xs ys : List Nat} :
    replace v (xs ++ ys) leaf = some w ↔
      ∃ m n, descend v xs = some m ∧ replace m ys leaf = some n ∧ replace v xs n = some w := by
  induction xs generalizing v w with
  | nil => simp [descend, replace]
  | cons i xs ih =>
    simp only [List.cons_append, replace_cons, descend_cons, ih]
    constructor
    · rintro ⟨r, values, child, child', rfl, hc, ⟨m, n, hm, hn, hw⟩, rfl⟩
      exact ⟨m, n, ⟨r, values, child, rfl, hc, hm⟩, hn, r, values, child, child', rfl, hc, hw, rfl⟩
    · rintro ⟨m, n, ⟨r, values, child, rfl, hc, hm⟩, hn, _, _, child₂, child', hv, hc₂, hw, rfl⟩
      obtain ⟨rfl, rfl⟩ := Value.record.inj hv
      obtain rfl : child = child₂ := Option.some.inj (hc.symm.trans hc₂)
      exact ⟨r, values, child, child', rfl, hc, ⟨m, n, hm, hn, hw⟩, rfl⟩

theorem exists_descend {t u : Ty} {steps : List Nat} (h : Leads t steps u) {v : Value}
    (hv : v.WellTyped) (ht : t.accepts v = true) :
    ∃ leaf, descend v steps = some leaf ∧ u.accepts leaf = true ∧ leaf.WellTyped := by
  induction h generalizing v with
  | here => exact ⟨v, rfl, ht, hv⟩
  | down hf _ ih =>
    obtain ⟨values, rfl⟩ := Value.eq_record_of_accepts ht
    obtain ⟨child, hc, ha, hw⟩ := Value.Fit.exists_getElem? hv hf
    obtain ⟨leaf, hd, hleaf⟩ := ih hw ha
    exact ⟨leaf, descend_cons.2 ⟨_, values, child, rfl, hc, hd⟩, hleaf⟩

theorem exists_replace {t u : Ty} {steps : List Nat} (h : Leads t steps u) {v leaf : Value}
    (hv : v.WellTyped) (ht : t.accepts v = true) (hu : u.accepts leaf = true)
    (hl : leaf.WellTyped) :
    ∃ v', replace v steps leaf = some v' ∧ t.accepts v' = true ∧ v'.WellTyped := by
  induction h generalizing v with
  | here => exact ⟨leaf, rfl, hu, hl⟩
  | down hf _ ih =>
    obtain ⟨values, rfl⟩ := Value.eq_record_of_accepts ht
    obtain ⟨child, hc, ha, hw⟩ := Value.Fit.exists_getElem? hv hf
    obtain ⟨child', hr, ha', hw'⟩ := ih hw ha hu
    exact ⟨_, replace_cons.2 ⟨_, values, child, child', rfl, hc, hr, rfl⟩,
      Value.accepts_record _ _, Value.Fit.set hv hf ha' hw'⟩

theorem get_ok {l : Lens} {v leaf : Value} :
    l.get v = .ok leaf ↔ l.source.accepts v = true ∧ descend v l.steps = some leaf := by
  rw [get]
  split
  · next hs => cases hd : descend v l.steps <;> simp [hs]
  · next hs => simp [hs]

theorem set_ok {l : Lens} {v leaf v' : Value} :
    l.set v leaf = .ok v' ↔ l.source.accepts v = true ∧ l.target.accepts leaf = true ∧
      replace v l.steps leaf = some v' := by
  rw [set]
  split
  · next hs =>
    split
    · next ht => cases hr : replace v l.steps leaf <;> simp [hs, ht]
    · next ht => simp [ht]
  · next hs => simp [hs]

variable {l : Lens} {v leaf : Value}

section

variable [Alphabet]

theorem Built.exists_get (h : l.Built) (hv : v.WellTyped) (hs : l.source.accepts v = true) :
    ∃ leaf, l.get v = .ok leaf ∧ l.target.accepts leaf = true ∧ leaf.WellTyped := by
  obtain ⟨leaf, hd, hleaf⟩ := exists_descend h.leads hv hs
  exact ⟨leaf, get_ok.2 ⟨hs, hd⟩, hleaf⟩

theorem Built.exists_set (h : l.Built) (hv : v.WellTyped) (hs : l.source.accepts v = true)
    (hl : leaf.WellTyped) (ht : l.target.accepts leaf = true) :
    ∃ v', l.set v leaf = .ok v' ∧ l.source.accepts v' = true ∧ v'.WellTyped := by
  obtain ⟨v', hr, hv'⟩ := exists_replace h.leads hv hs ht hl
  exact ⟨v', set_ok.2 ⟨hs, ht, hr⟩, hv'⟩

theorem Built.of_get (h : l.Built) (hv : v.WellTyped) (hget : l.get v = .ok leaf) :
    l.target.accepts leaf = true ∧ leaf.WellTyped := by
  obtain ⟨x, hx, hleaf⟩ := h.exists_get hv (get_ok.1 hget).1
  obtain rfl : leaf = x := Except.ok.inj (hget.symm.trans hx)
  exact hleaf

theorem Built.of_set (h : l.Built) (hv : v.WellTyped) (hl : leaf.WellTyped) {w : Value}
    (hset : l.set v leaf = .ok w) : l.source.accepts w = true ∧ w.WellTyped := by
  obtain ⟨hs, ht, -⟩ := set_ok.1 hset
  obtain ⟨x, hx, hwhole⟩ := h.exists_set hv hs hl ht
  obtain rfl : w = x := Except.ok.inj (hset.symm.trans hx)
  exact hwhole

end

theorem get_set {v' : Value} (h : l.set v leaf = .ok v') (hs : l.source.accepts v' = true) :
    l.get v' = .ok leaf :=
  get_ok.2 ⟨hs, descend_replace (set_ok.1 h).2.2⟩

theorem set_get (h : l.get v = .ok leaf) (ht : l.target.accepts leaf = true) :
    l.set v leaf = .ok v :=
  set_ok.2 ⟨(get_ok.1 h).1, ht, replace_descend (get_ok.1 h).2⟩

theorem set_set {v' other : Value} (h : l.set v leaf = .ok v')
    (hs : l.source.accepts v' = true) : l.set v' other = l.set v other := by
  obtain ⟨hv, -, hr⟩ := set_ok.1 h
  have hm : l.sourceMismatch v' = l.sourceMismatch v := by
    rw [sourceMismatch, sourceMismatch, Ty.accepts_iff.1 hs, Ty.accepts_iff.1 hv]
  simp only [set, hs, hv, if_true, replace_replace hr, hm]

/-- The laws of a lens on well-typed values. It gets from the values of its source type and from no
others, and sets in them the values of its target type and no others. What it has set it gets, to
set what it gets changes nothing, the later of two settings counts, and the whole keeps its type. -/
theorem Built.laws [Alphabet] (h : l.Built) (hv : v.WellTyped) {a b : Value} (ha : a.WellTyped)
    (hb : b.WellTyped) :
    ((∃ x, l.get v = .ok x) ↔ l.source.accepts v = true) ∧
    ((∃ w, l.set v a = .ok w) ↔ l.source.accepts v = true ∧ l.target.accepts a = true) ∧
    (l.source.accepts v = true → l.target.accepts a = true → l.target.accepts b = true →
      ∃ x w u, l.get v = .ok x ∧ l.set v a = .ok w ∧ l.set v b = .ok u ∧
        l.target.accepts x = true ∧ l.get w = .ok a ∧ l.set v x = .ok v ∧ l.set w b = .ok u ∧
        w.WellTyped ∧ l.source.accepts w = true ∧ w.typeOf = v.typeOf) := by
  refine ⟨⟨fun ⟨x, hx⟩ => (get_ok.1 hx).1, fun hs => ?_⟩,
    ⟨fun ⟨w, hw⟩ => ⟨(set_ok.1 hw).1, (set_ok.1 hw).2.1⟩, fun ⟨hs, ht⟩ => ?_⟩, ?_⟩
  · obtain ⟨x, hx, -⟩ := h.exists_get hv hs
    exact ⟨x, hx⟩
  · obtain ⟨w, hw, -⟩ := h.exists_set hv hs ha ht
    exact ⟨w, hw⟩
  · intro hs hta htb
    obtain ⟨x, hx, htx, -⟩ := h.exists_get hv hs
    obtain ⟨w, hw, hsw, hwt⟩ := h.exists_set hv hs ha hta
    obtain ⟨u, hu, -⟩ := h.exists_set hv hs hb htb
    have htype : w.typeOf = v.typeOf := (Ty.accepts_iff.1 hsw).trans (Ty.accepts_iff.1 hs).symm
    exact ⟨x, w, u, hx, hw, hu, htx, get_set hw hsw, set_get hx htx, (set_set hw hsw).trans hu,
      hwt, hsw, htype⟩

def dateType : RecordType :=
  ⟨.registry 0, 0, [⟨.label "day", .primitive .int⟩, ⟨.label "year", .primitive .int⟩]⟩

def personType : RecordType :=
  ⟨.registry 0, 1, [⟨.label "birthday", dateType.ty⟩, ⟨.label "name", .primitive .string⟩]⟩

def gagarin : Value :=
  .record personType [.record dateType [.scalar (.int 9), .scalar (.int 1934)],
    .scalar (.string "Yuri")]

def birthYear : Lens :=
  ⟨personType.ty, .primitive .int, [.label "birthday", .label "year"], [0, 1]⟩

theorem built_birthYear : birthYear.Built :=
  .compose (.derivePath (t := personType.ty) (p := [.label "birthday"]) rfl)
    (.derivePath (t := dateType.ty) (p := [.label "year"]) rfl) rfl

/-- The laws hold of a composed lens and a person. -/
theorem Built.laws_birthYear :
    birthYear.Built ∧ gagarin.WellTyped ∧
      ∃ x w u, birthYear.get gagarin = .ok x ∧
        birthYear.set gagarin (.scalar (.int 1935)) = .ok w ∧
        birthYear.set gagarin (.scalar (.int 1936)) = .ok u ∧
        birthYear.target.accepts x = true ∧ birthYear.get w = .ok (.scalar (.int 1935)) ∧
        birthYear.set gagarin x = .ok gagarin ∧
        birthYear.set w (.scalar (.int 1936)) = .ok u ∧
        w.WellTyped ∧ birthYear.source.accepts w = true ∧ w.typeOf = gagarin.typeOf :=
  ⟨built_birthYear, by decide,
    (Built.laws built_birthYear (by decide) (Value.wellTyped_scalar _)
      (Value.wellTyped_scalar _)).2.2 (by decide) (by decide) (by decide)⟩

end Lens

end RecordLens
