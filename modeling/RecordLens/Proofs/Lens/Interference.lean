import RecordLens.Proofs.Field.Lookup
import RecordLens.Proofs.Lens.Composition

/-! Updates at different places. Where the paths of two lenses part, neither update is seen through
the other lens and their order does not matter; where one path goes on from the other, the longer
lens sees and changes a part of what the shorter one shows. -/

namespace RecordLens

/-- The lists agree up to a place where both go on, and there they differ. -/
inductive Apart {α : Type} : List α → List α → Prop
  | fork {x y : α} {xs ys : List α} (h : x ≠ y) : Apart (x :: xs) (y :: ys)
  | cons (x : α) {xs ys : List α} (h : Apart xs ys) : Apart (x :: xs) (x :: ys)

theorem apart_of_incomparable {α : Type} {xs ys : List α} (hx : ¬xs <+: ys) (hy : ¬ys <+: xs) :
    Apart xs ys := by
  induction xs generalizing ys with
  | nil => exact absurd List.nil_prefix hx
  | cons x xs ih =>
    cases ys with
    | nil => exact absurd List.nil_prefix hy
    | cons y ys =>
      by_cases h : x = y
      · subst h
        rw [List.prefix_cons_inj] at hx hy
        exact .cons x (ih hx hy)
      · exact .fork h

namespace Ty

theorem child?_inj {t u w : Ty} {m n : FieldName} {i : Nat} (hm : t.child? m = some (i, u))
    (hn : t.child? n = some (i, w)) : m = n ∧ u = w := by
  obtain ⟨r, f, rfl, hi, hf, rfl⟩ := child?_eq_some hm
  obtain ⟨r', f', hr, hi', hf', rfl⟩ := child?_eq_some hn
  obtain rfl := RecordType.ty_injective hr
  obtain rfl : f = f' := Option.some.inj (hf.symm.trans hf')
  obtain ⟨x, hx, rfl⟩ := Field.exists_of_index? hi
  obtain ⟨y, hy, rfl⟩ := Field.exists_of_index? hi'
  exact ⟨congrArg Field.name (Option.some.inj (hx.symm.trans hy)), rfl⟩

/-- Where paths part, so do the indices that they go through. -/
theorem apart_of_resolve {t u w : Ty} {p q : Path} (h : Apart p q) {xs ys : List Nat}
    (hp : t.resolve p = .ok (xs, u)) (hq : t.resolve q = .ok (ys, w)) : Apart xs ys := by
  induction h generalizing t xs ys with
  | fork hne =>
    obtain ⟨i, child, rest, hi, -, rfl⟩ := resolve_cons_ok.1 hp
    obtain ⟨j, child', rest', hj, -, rfl⟩ := resolve_cons_ok.1 hq
    refine .fork fun hij => hne ?_
    subst hij
    exact (child?_inj hi hj).1
  | cons name _ ih =>
    obtain ⟨i, child, rest, hi, hrest, rfl⟩ := resolve_cons_ok.1 hp
    obtain ⟨j, child', rest', hj, hrest', rfl⟩ := resolve_cons_ok.1 hq
    obtain ⟨rfl, rfl⟩ := Prod.mk.inj (Option.some.inj (hi.symm.trans hj))
    exact .cons i (ih hrest hrest')

theorem exists_of_resolve_append {t u w : Ty} {p q : Path} {xs zs : List Nat}
    (hp : t.resolve p = .ok (xs, u)) (h : t.resolve (p ++ q) = .ok (zs, w)) :
    ∃ ys, u.resolve q = .ok (ys, w) ∧ zs = xs ++ ys := by
  induction p generalizing t xs zs with
  | nil =>
    obtain ⟨rfl, rfl⟩ := Prod.mk.inj (Except.ok.inj hp)
    exact ⟨zs, h, rfl⟩
  | cons name p ih =>
    obtain ⟨i, child, rest, hi, hrest, rfl⟩ := resolve_cons_ok.1 hp
    obtain ⟨j, child', rest', hj, hrest', rfl⟩ := resolve_cons_ok.1 h
    obtain ⟨rfl, rfl⟩ := Prod.mk.inj (Option.some.inj (hi.symm.trans hj))
    obtain ⟨ys, hys, rfl⟩ := ih hrest hrest'
    exact ⟨ys, hys, rfl⟩

end Ty

namespace Lens

variable {v w leaf : Value} {xs ys : List Nat}

theorem descend_record {r : RecordType} {values : List Value} {i : Nat} :
    descend (.record r values) (i :: xs) = values[i]?.bind fun child => descend child xs := rfl

theorem descend_replace_apart (h : Apart xs ys) (hr : replace v xs leaf = some w) :
    descend w ys = descend v ys := by
  induction h generalizing v w with
  | fork hne =>
    obtain ⟨r, values, child, child', rfl, -, -, rfl⟩ := replace_cons.1 hr
    rw [descend_record, descend_record, List.getElem?_set_ne hne]
  | cons i _ ih =>
    obtain ⟨r, values, child, child', rfl, hc, hrest, rfl⟩ := replace_cons.1 hr
    rw [descend_record, descend_record, getElem?_set_of_getElem? hc child', hc]
    exact ih hrest

theorem replace_comm_apart (h : Apart xs ys) {a b v₁ v₂ : Value} (ha : replace v xs a = some v₁)
    (hb : replace v ys b = some v₂) : ∃ w, replace v₂ xs a = some w ∧ replace v₁ ys b = some w := by
  induction h generalizing v v₁ v₂ with
  | @fork i j _ _ hne =>
    obtain ⟨r, values, c, c', rfl, hc, hrest, rfl⟩ := replace_cons.1 ha
    obtain ⟨_, _, d, d', hv, hd, hrest', rfl⟩ := replace_cons.1 hb
    obtain ⟨rfl, rfl⟩ := Value.record.inj hv
    have hc' : (values.set j d')[i]? = some c := by rw [List.getElem?_set_ne hne.symm, hc]
    have hd' : (values.set i c')[j]? = some d := by rw [List.getElem?_set_ne hne, hd]
    refine ⟨.record r ((values.set i c').set j d'), ?_, ?_⟩
    · rw [replace_record hc', hrest, Option.map_some, List.set_comm _ _ hne.symm]
    · rw [replace_record hd', hrest', Option.map_some]
  | cons i _ ih =>
    obtain ⟨r, values, c, c', rfl, hc, hrest, rfl⟩ := replace_cons.1 ha
    obtain ⟨_, _, d, d', hv, hd, hrest', rfl⟩ := replace_cons.1 hb
    obtain ⟨rfl, rfl⟩ := Value.record.inj hv
    obtain rfl : c = d := Option.some.inj (hc.symm.trans hd)
    obtain ⟨w, hw, hw'⟩ := ih hrest hrest'
    refine ⟨.record r (values.set i w), ?_, ?_⟩
    · rw [replace_record (getElem?_set_of_getElem? hc d'), hw, Option.map_some, List.set_set]
    · rw [replace_record (getElem?_set_of_getElem? hc c'), hw', Option.map_some, List.set_set]

variable {lp lq : Lens} {a b : Value}

/-- Through a lens whose steps part from those of another its update is not seen. -/
theorem get_set_apart (h : Apart lp.steps lq.steps) (hset : lp.set v a = .ok w) {x : Value}
    (hget : lq.get v = .ok x) (hw : lq.source.accepts w = true) : lq.get w = .ok x := by
  rw [get_ok, descend_replace_apart h (set_ok.1 hset).2.2]
  exact ⟨hw, (get_ok.1 hget).2⟩

theorem get_set_of_incomparable {t : Ty} {p q : Path} (hp : derivePath t p = .ok lp)
    (hq : derivePath t q = .ok lq) (hpq : ¬p <+: q) (hqp : ¬q <+: p) (hset : lp.set v a = .ok w)
    (hw : t.accepts w = true) {x : Value} (hget : lq.get v = .ok x) : lq.get w = .ok x := by
  obtain ⟨-, -, hpr⟩ := derivePath_eq_ok_iff.1 hp
  obtain ⟨rfl, -, hqr⟩ := derivePath_eq_ok_iff.1 hq
  have hapart := Ty.apart_of_resolve (apart_of_incomparable hpq hqp) hpr hqr
  exact get_set_apart hapart hset hget hw

theorem set_comm_apart (h : Apart lp.steps lq.steps) {sa sb : Value} (ha : lp.set v a = .ok sa)
    (hb : lq.set v b = .ok sb) (hsb : lp.source.accepts sb = true)
    (hsa : lq.source.accepts sa = true) : ∃ w, lp.set sb a = .ok w ∧ lq.set sa b = .ok w := by
  obtain ⟨-, hta, hra⟩ := set_ok.1 ha
  obtain ⟨-, htb, hrb⟩ := set_ok.1 hb
  obtain ⟨w, hw, hw'⟩ := replace_comm_apart h hra hrb
  exact ⟨w, set_ok.2 ⟨hsb, hta, hw⟩, set_ok.2 ⟨hsa, htb, hw'⟩⟩

/-- The lens of a path that goes on is composed of the lens of the path and one of the rest. -/
theorem exists_compose_of_append {t : Ty} {p r : Path} (hp : derivePath t p = .ok lp)
    (hq : derivePath t (p ++ r) = .ok lq) :
    ∃ lr, derivePath lp.target r = .ok lr ∧ lp.compose lr = .ok lq := by
  obtain ⟨hps, hpp, hpr⟩ := derivePath_eq_ok_iff.1 hp
  obtain ⟨hqs, hqp, hqr⟩ := derivePath_eq_ok_iff.1 hq
  obtain ⟨ys, hys, hsteps⟩ := Ty.exists_of_resolve_append hpr hqr
  refine ⟨⟨lp.target, lq.target, r, ys⟩, derivePath_eq_ok_iff.2 ⟨rfl, rfl, hys⟩, ?_⟩
  refine compose_ok.2 ⟨rfl, ?_⟩
  rw [hps, hpp, ← hsteps, ← hqs, ← hqp]

/-- Two updates of a value do not interfere. Where neither path begins with the other, each update
is out of sight of the other lens, and their order does not matter. Where the second path goes on
from the first, its lens gets from what is set there what the lens of the rest gets, and what it
sets is seen there as set by the lens of the rest. -/
theorem updates_apart_or_nested {t : Ty} {p q : Path} {lp lq : Lens}
    (hp : derivePath t p = .ok lp) (hq : derivePath t q = .ok lq) {v a b : Value}
    (hv : v.WellTyped) (ht : t.accepts v = true) (ha : a.WellTyped)
    (hta : lp.target.accepts a = true) (hb : b.WellTyped) (htb : lq.target.accepts b = true) :
    ∃ va vb, lp.set v a = .ok va ∧ lq.set v b = .ok vb ∧
      (¬p <+: q → ¬q <+: p →
        (∃ x, lq.get va = .ok x ∧ lq.get v = .ok x) ∧
        ∃ w, lp.set vb a = .ok w ∧ lq.set va b = .ok w) ∧
      ∀ r, q = p ++ r → ∃ lr, derivePath lp.target r = .ok lr ∧
        (∃ x, lq.get va = .ok x ∧ lr.get a = .ok x) ∧
        ∃ m n, lp.get v = .ok m ∧ lr.set m b = .ok n ∧ lp.get vb = .ok n := by
  have hlp : lp.Built := .derivePath hp
  have hlq : lq.Built := .derivePath hq
  obtain ⟨rfl, -, hpr⟩ := derivePath_eq_ok_iff.1 hp
  obtain ⟨hsource, -, hqr⟩ := derivePath_eq_ok_iff.1 hq
  obtain ⟨va, hva, hsa, -⟩ := hlp.exists_set hv ht ha hta
  obtain ⟨vb, hvb, hsb, -⟩ := hlq.exists_set hv (hsource ▸ ht) hb htb
  refine ⟨va, vb, hva, hvb, fun hpq hqp => ?_, ?_⟩
  · have hapart := Ty.apart_of_resolve (apart_of_incomparable hpq hqp) hpr hqr
    obtain ⟨x, hx, -⟩ := hlq.exists_get hv (hsource ▸ ht)
    exact ⟨⟨x, get_set_apart hapart hva hx (hsource ▸ hsa), hx⟩,
      set_comm_apart hapart hva hvb (hsource ▸ hsb) (hsource ▸ hsa)⟩
  · rintro r rfl
    obtain ⟨lr, hr, hc⟩ := exists_compose_of_append hp hq
    have hlr : lr.Built := .derivePath hr
    obtain ⟨hseam, hlqEq⟩ := compose_ok.1 hc
    have htarget : lr.target = lq.target := by rw [hlqEq]
    refine ⟨lr, hr, ?_, ?_⟩
    · obtain ⟨x, hx, -⟩ := hlr.exists_get ha (hseam ▸ hta)
      exact ⟨x, get_compose hc (get_set hva hsa) hx, hx⟩
    · obtain ⟨m, hm, hsm, hmw⟩ := hlp.exists_get hv ht
      obtain ⟨n, hn, hsn, hnw⟩ := hlr.exists_set hmw (hseam ▸ hsm) hb (htarget ▸ htb)
      obtain ⟨w, hw, hsw, -⟩ := hlp.exists_set hv ht hnw (hseam ▸ hsn)
      obtain rfl : vb = w := Except.ok.inj (hvb.symm.trans (set_compose hc hm hn hw))
      exact ⟨m, n, hm, hn, get_set hw hsw⟩

def name : Lens := ⟨personType.ty, .primitive .string, [.label "name"], [1]⟩

def date (year : Int64) : Value := .record dateType [.scalar (.int 9), .scalar (.int year)]

/-- The year of the birthday and the name of a person are apart, and the birthday goes on to its
year. -/
theorem updates_apart_or_nested_gagarin :
    gagarin.WellTyped ∧ Lens.derivePath personType.ty [.label "name"] = .ok name ∧
      Lens.derivePath personType.ty [.label "birthday"] = .ok birthday ∧
      Lens.derivePath personType.ty [.label "birthday", .label "year"] = .ok birthYear ∧
      (∃ w, birthYear.set (.record personType [date 1934, .scalar (.string "Gherman")])
            (.scalar (.int 1935)) = .ok w ∧
          name.set (.record personType [date 1935, .scalar (.string "Yuri")])
            (.scalar (.string "Gherman")) = .ok w) ∧
      ∃ m n, birthday.get gagarin = .ok m ∧ year.set m (.scalar (.int 1935)) = .ok n ∧
        birthday.get (.record personType [date 1935, .scalar (.string "Yuri")]) = .ok n := by
  have hname : Lens.derivePath personType.ty [.label "name"] = .ok name := rfl
  have hbirthday : Lens.derivePath personType.ty [.label "birthday"] = .ok birthday := rfl
  have hyear : Lens.derivePath personType.ty [.label "birthday", .label "year"] =
      .ok birthYear := rfl
  refine ⟨by decide, hname, hbirthday, hyear, ?_, ?_⟩
  · obtain ⟨va, vb, hva, hvb, hapart, -⟩ :=
      updates_apart_or_nested hyear hname (v := gagarin) (by decide) (by decide)
        (Value.wellTyped_scalar (.int 1935)) (by decide)
        (Value.wellTyped_scalar (.string "Gherman")) (by decide)
    cases hva
    cases hvb
    exact (hapart (by decide) (by decide)).2
  · obtain ⟨va, vb, -, hvb, -, hnested⟩ :=
      updates_apart_or_nested hbirthday hyear (v := gagarin) (by decide) (by decide)
        (a := date 1968) (by decide) (by decide) (Value.wellTyped_scalar (.int 1935)) (by decide)
    cases hvb
    obtain ⟨lr, hlr, -, hset⟩ := hnested [.label "year"] rfl
    cases hlr
    exact hset

end Lens

end RecordLens
