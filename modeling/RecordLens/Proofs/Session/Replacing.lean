import RecordLens.Proofs.Lens.Interference
import RecordLens.Proofs.Session.Bound

/-! What `set` does to a session, as `get` and `show` tell it. The field that is set is read as what
the literal denotes there, fields on other paths are read as before, other values stay as they are,
and the type of the value stays too. -/

namespace RecordLens

open Text (IsWord)

namespace Session

variable {s s' : Session} {n p e : String} {v v' : RecordValue}

theorem outcome_showValue (hbound : s.values.get? n = some v) :
    (showValue n).outcome s = (.ok (n ++ " = " ++ v.text ++ " :: " ++ v.type.text), s) := by
  have hvalue : (value n).outcome s = (.ok v, s) := by rw [outcome_value, hbound]
  rw [showValue, Command.outcome_bind, hvalue]
  rfl

/-- `get` answers the same for values of one type that have the same field there. -/
theorem outcome_get_congr [Alphabet] (hs : s.Sound) (hs' : s'.Sound) (hn : IsWord n)
    (hbound : s.values.get? n = some v) (hbound' : s'.values.get? n = some v')
    (htype : v'.type = v.type)
    (hsame : ∀ l x, Lens.read v.type.ty p = .ok l → l.get v.value = .ok x →
      l.get v'.value = .ok x) :
    ((run ("get " ++ n ++ " " ++ p)).outcome s').1 =
      ((run ("get " ++ n ++ " " ++ p)).outcome s).1 := by
  obtain ⟨behind, hview⟩ := exists_outcome_view hn hbound p
  obtain ⟨behind', hview'⟩ := exists_outcome_view hn hbound' p
  rw [htype] at hview'
  rw [run_get_target]
  cases hl : Lens.read v.type.ty (Text.trim p) with
  | error e =>
    rw [hl] at hview hview'
    rw [getField_eq, Command.outcome_bind_error _ hview, Command.outcome_bind_error _ hview']
  | ok l =>
    rw [hl] at hview hview'
    obtain ⟨field, hfield, hget⟩ := outcome_getField hview hs
    obtain ⟨field', hfield', hget'⟩ := outcome_getField hview' hs'
    have hp : Lens.read v.type.ty p = .ok l := Lens.read_of_trim_eq hl (Text.trim_trim p).symm
    obtain rfl := Except.ok.inj (hfield'.symm.trans (hsame l field hp hfield))
    rw [hget, hget']

/-- A `set` that succeeds has put the value of the literal into the field and bound the result. -/
theorem exists_of_set [Alphabet] (hs : s.Sound) (hn : IsWord n) (hequals : '=' ∉ n.toList)
    (hbound : s.values.get? n = some v) {q : PathExpr} (hread : PathExpr.read p = .ok q)
    {out : String}
    (hset : (run ("set " ++ n ++ " " ++ p ++ " = " ++ e)).outcome s = (.ok out, s')) :
    ∃ v' l leaf, Lens.read v.type.ty p = .ok l ∧ leaf.typeOf = l.target ∧
      (∃ expr, Expr.read usualNesting e = .ok expr ∧
        (expr.elaborate (some l.target) []).outcome s.registry = (.ok leaf, s.registry)) ∧
      l.set v.value leaf = .ok v'.value ∧ v'.type = v.type ∧
      s' = { s with values := s.values.put n v' } := by
  rw [run_set_target] at hset
  obtain ⟨r, hr⟩ := (exists_setField_ok_iff hs).1 ⟨out, s', hset⟩
  obtain ⟨rfl, rfl, hl, hleaf⟩ := of_replacement hn hequals hbound hread hr
  obtain ⟨v', hupdated, htype, houtcome⟩ := outcome_setField hr hs
  obtain ⟨-, hin⟩ := (ends_replacement _).of_ok r s hr
  exact ⟨v', r.lens, r.leaf, hl, hin.typeOf_leaf, hleaf, hupdated, htype,
    (Prod.mk.inj (hset.symm.trans houtcome)).2⟩

/-- In every session that inputs lead to, a `set` that succeeds is seen by `get` on the same path,
which shows the literal as it is elaborated at the type of the field, and by no `get` on a path of
which neither begins with the other. Other names stay bound to what they are bound to, and `show`
shows the same type as before. -/
theorem Reachable.set_seen_by_get [Alphabet] (h : s.Reachable) (hn : IsWord n)
    (hbound : s.values.get? n = some v) {q : PathExpr} (hread : PathExpr.read p = .ok q)
    {out : String}
    (hset : (Session.run ("set " ++ n ++ " " ++ p ++ " = " ++ e)).outcome s = (.ok out, s')) :
    ∃ v' l expr leaf, Lens.derive v.type.ty q = .ok l ∧ Expr.read usualNesting e = .ok expr ∧
      (expr.elaborate (some l.target) []).outcome s.registry = (.ok leaf, s.registry) ∧
      leaf.typeOf = l.target ∧ s' = { s with values := s.values.put n v' } ∧
      (Session.run ("get " ++ n ++ " " ++ p)).outcome s' =
        (.ok (leaf.text ++ " :: " ++ l.target.text), s') ∧
      (∀ other r, PathExpr.read other = .ok r → ¬q.path <+: r.path → ¬r.path <+: q.path →
        ((Session.run ("get " ++ n ++ " " ++ other)).outcome s').1 =
          ((Session.run ("get " ++ n ++ " " ++ other)).outcome s).1) ∧
      (∀ m, m ≠ n → s'.values.get? m = s.values.get? m) ∧
      (Session.run ("show " ++ n)).outcome s =
        (.ok (n ++ " = " ++ v.text ++ " :: " ++ v.type.text), s) ∧
      (Session.run ("show " ++ n)).outcome s' =
        (.ok (n ++ " = " ++ v'.text ++ " :: " ++ v.type.text), s') := by
  have hs := h.sound
  have hs' : s'.Sound := by
    have hrun := (h.run ("set " ++ n ++ " " ++ p ++ " = " ++ e)).sound
    rwa [hset] at hrun
  obtain ⟨v', l, leaf, hl, htypeOf, ⟨expr, hexpr, hleaf⟩, hput, htype, rfl⟩ :=
    exists_of_set hs hn (h.bindable hbound).noEquals hbound hread hset
  obtain ⟨q', hq', hpath⟩ := Lens.read_eq_ok_iff.1 hl
  obtain rfl := Except.ok.inj (hread.symm.trans hq')
  obtain ⟨hsource, -⟩ := Lens.derivePath_eq_ok_iff.1 hpath
  have hbound' : (s.values.put n v').get? n = some v' := by rw [Bindings.get?_put, if_pos rfl]
  have haccepts : v.type.ty.accepts v'.value = true := by
    rw [← htype]
    exact Value.accepts_record v'.type v'.values
  have hname : Text.trim n = n := hn.solid.trim_eq_self
  refine ⟨v', l, expr, leaf, Lens.derive_eq_ok_iff.2 hpath, hexpr, hleaf, htypeOf, rfl, ?_, ?_, ?_,
    ?_, ?_⟩
  · obtain ⟨behind, hview⟩ := exists_view (s := { s with values := s.values.put n v' }) hn hbound'
      (htype.symm ▸ hl)
    obtain ⟨field, hfield, hget⟩ := outcome_getField hview hs'
    obtain rfl := Except.ok.inj (hfield.symm.trans (Lens.get_set hput (hsource ▸ haccepts)))
    rw [run_get_target, hget]
  · intro other r hr hqr hrq
    refine outcome_get_congr hs hs' hn hbound hbound' htype fun lr x hlr hx => ?_
    obtain ⟨r', hr', hrpath⟩ := Lens.read_eq_ok_iff.1 hlr
    obtain rfl := Except.ok.inj (hr.symm.trans hr')
    exact Lens.get_set_of_incomparable hpath hrpath hqr hrq hput haccepts hx
  · intro m hm
    rw [Bindings.get?_put, if_neg hm.symm]
  · rw [run_show, hname, outcome_showValue hbound]
  · rw [run_show, hname, outcome_showValue hbound', htype]

def parcelType : RecordType :=
  ⟨.registry 0, 0, [⟨.label "n", .primitive .int⟩, ⟨.label "w", .primitive .double⟩]⟩

def parcel (weight : Binary64) : RecordValue :=
  ⟨parcelType, [.scalar (.int 3), .scalar (.float weight)]⟩

def parcelled (weight : Binary64) : Session :=
  ⟨⟨.registry 0, [parcelType.fields]⟩, [], [("p", parcel weight)]⟩

def unweighed : Session := parcelled (.zero true)

def weighed : Session := parcelled (.zero false)

theorem reachable_unweighed : unweighed.Reachable := by
  have hlet : ((Session.run "let p = \x7bw = -0.0, n = 3\x7d").outcome empty).2 =
      unweighed := by decide +kernel
  exact hlet ▸ .run .empty _

/-- An integer is set where a double is expected, and seen as one; the count is read as before. -/
theorem Reachable.set_seen_by_get_weighed :
    unweighed.Reachable ∧ IsWord "p" ∧
      unweighed.values.get? "p" = some (parcel (.zero true)) ∧
      (Session.run ("set " ++ "p" ++ " " ++ "w" ++ " = " ++ "0 ")).outcome unweighed =
        (.ok "p = \x7bn = 3, w = 0.0\x7d", weighed) ∧
      (∃ leaf : Value, (Session.run ("get " ++ "p" ++ " " ++ "w")).outcome weighed =
        (.ok (leaf.text ++ " :: " ++ "Double"), weighed)) ∧
      ((Session.run ("get " ++ "p" ++ " " ++ "n")).outcome weighed).1 =
        ((Session.run ("get " ++ "p" ++ " " ++ "n")).outcome unweighed).1 := by
  let l : Lens := ⟨parcelType.ty, .primitive .double, [.label "w"], [1]⟩
  have hbound : unweighed.values.get? "p" = some (parcel (.zero true)) := by decide +kernel
  have hweight : PathExpr.read "w" = .ok [⟨.label "w", ⟨⟨1, 1, 0⟩, 1⟩⟩] := by decide +kernel
  have hcount : PathExpr.read "n" = .ok [⟨.label "n", ⟨⟨1, 1, 0⟩, 1⟩⟩] := by decide +kernel
  have hset : (Session.run ("set " ++ "p" ++ " " ++ "w" ++ " = " ++ "0 ")).outcome unweighed =
      (.ok "p = \x7bn = 3, w = 0.0\x7d", weighed) := by decide +kernel
  have hl : Lens.derive parcelType.ty [⟨.label "w", ⟨⟨1, 1, 0⟩, 1⟩⟩] = .ok l := rfl
  have htext : l.target.text = "Double" := by decide +kernel
  obtain ⟨v', l', expr, leaf, hl', -, -, -, -, hget, happart, -⟩ :=
    reachable_unweighed.set_seen_by_get (by decide +kernel) hbound hweight hset
  obtain rfl := Except.ok.inj (hl.symm.trans hl')
  rw [htext] at hget
  exact ⟨reachable_unweighed, by decide +kernel, hbound, hset, ⟨leaf, hget⟩,
    happart "n" _ hcount (by decide) (by decide)⟩

end Session

end RecordLens
