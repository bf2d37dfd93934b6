import RecordLens.Proofs.Elaboration.Unplaced
import RecordLens.Proofs.Lens.Derivation
import RecordLens.Proofs.Path.Printed
import RecordLens.Proofs.Session.Soundness

/-! How inputs are taken apart, and what `get` and `set` make of the parts. Behind the command a
name without blanks is split off at the first blank, and the path behind it is trimmed before it is
read; `set` first cuts what it is given at the equals sign. -/

namespace RecordLens

open Text (IsWord)

theorem Lens.read_of_trim_eq [Alphabet] {t : Ty} {text other : String} {l : Lens}
    (h : Lens.read t text = .ok l) (htrim : Text.trim other = Text.trim text) :
    Lens.read t other = .ok l := by
  obtain ⟨q, hq, hl⟩ := Lens.read_eq_ok_iff.1 h
  obtain ⟨hne, hlegible, -⟩ := PathExpr.written_of_read hq
  obtain ⟨q', hq', hpath⟩ :=
    PathExpr.exists_read_of_trim hne hlegible (htrim.trans (PathExpr.trim_of_read hq))
  exact Lens.read_eq_ok_iff.2 ⟨q', hq', hpath ▸ hl⟩

namespace Session

variable {s s' : Session}

theorem splitWord_of_toList {text word rest : String} {c : Char}
    (hword : ∀ d ∈ word.toList, Text.isBlank d = false) (hc : Text.isBlank c = true)
    (h : text.toList = word.toList ++ c :: rest.toList) : splitWord text = (word, rest) := by
  rw [splitWord, Text.splitOnce?_eq word rest hword hc h]
  rfl

theorem splitWord_append {word : String} (h : IsWord word) (rest : String) :
    splitWord (word ++ " " ++ rest) = (word, rest) :=
  splitWord_of_toList (c := ' ') h.2 (by decide) (by simp)

theorem splitWord_of_forall {text : String} (h : ∀ c ∈ text.toList, Text.isBlank c = false) :
    splitWord text = (text, "") := by
  rw [splitWord, Text.splitOnce?_eq_none.2 h]
  rfl

theorem trim_name_cases {n : String} (hn : Text.Solid n.toList) (p : String) :
    (Text.trim (n ++ " " ++ p) = n ∧ Text.trim p = "") ∨
      ∃ behind, Text.trim (n ++ " " ++ p) = n ++ " " ++ behind ∧
        Text.trim behind = Text.trim p := by
  obtain ⟨kept, htrim, hkept, hbehind⟩ := Text.exists_trim_append hn (" " ++ p)
  have hkept : kept.toList <+: ' ' :: p.toList := by simpa using hkept
  have hp : Text.trim (" " ++ p) = Text.trim p :=
    Text.trim_blanks_append [' '] (by simp; decide) (by simp)
  rw [hp] at hbehind
  rw [String.append_assoc, htrim]
  rcases List.prefix_cons_iff.1 hkept with hnil | ⟨cs, hcons, -⟩
  · obtain rfl : kept = "" := by simpa using hnil
    exact .inl ⟨String.append_empty, hbehind.symm⟩
  · obtain rfl : kept = " " ++ String.ofList cs := by
      rw [← String.toList_inj]
      simpa using hcons
    refine .inr ⟨String.ofList cs, by rw [String.append_assoc], ?_⟩
    rw [← hbehind]
    exact (Text.trim_blanks_append [' '] (by simp; decide) (by simp)).symm

/-- A name without blanks is split off again, with what is left of the text behind it. -/
theorem exists_splitWord {n : String} (hn : IsWord n) (p : String) :
    ∃ behind, splitWord (Text.trim (n ++ " " ++ p)) = (n, behind) ∧
      Text.trim behind = Text.trim p := by
  rcases trim_name_cases hn.solid p with ⟨htrim, hp⟩ | ⟨behind, htrim, hp⟩
  · exact ⟨"", by rw [htrim, splitWord_of_forall hn.2], by rw [hp]; rfl⟩
  · exact ⟨behind, by rw [htrim, splitWord_append hn], hp⟩

section

variable [Alphabet]

theorem run_eq_bindValue {input rest : String} (h : splitWord input = ("let", rest)) :
    run input = bindValue (Text.trim rest) := by
  rw [run, h]
  rfl

theorem run_let (rest : String) : run ("let " ++ rest) = bindValue (Text.trim rest) :=
  run_eq_bindValue (by simpa using splitWord_append (by decide +kernel : IsWord "let") rest)

theorem run_get (rest : String) : run ("get " ++ rest) = getField (Text.trim rest) := by
  have h : splitWord ("get " ++ rest) = ("get", rest) := by
    simpa using splitWord_append (by decide +kernel : IsWord "get") rest
  rw [run, h]
  rfl

theorem run_set (rest : String) : run ("set " ++ rest) = setField (Text.trim rest) := by
  have h : splitWord ("set " ++ rest) = ("set", rest) := by
    simpa using splitWord_append (by decide +kernel : IsWord "set") rest
  rw [run, h]
  rfl

theorem run_show (name : String) : run ("show " ++ name) = showValue (Text.trim name) := by
  have h : splitWord ("show " ++ name) = ("show", name) := by
    simpa using splitWord_append (by decide +kernel : IsWord "show") name
  rw [run, h]
  rfl

end

theorem splitBinding_trim {target : String} (hne : Text.trim target ≠ "")
    (hequals : '=' ∉ target.toList) (literal : String) :
    splitBinding (Text.trim (target ++ " = " ++ literal)) =
      .ok (Text.trim target, Text.trim literal) := by
  obtain ⟨front, back, hf, hb, htarget⟩ := Text.exists_of_trim target
  let head := Text.trim target ++ String.ofList (back ++ [' '])
  have hblank : ∀ c ∈ back ++ [' '], Text.isBlank c = true :=
    List.forall_mem_append.2 ⟨hb, List.forall_mem_singleton.2 (by decide)⟩
  have hhead : Text.trim head = Text.trim target :=
    Text.trim_eq (Text.solid_trim hne) [] _ (by simp) hblank (by simp [head])
  have hsolid : Text.Solid (head ++ "=").toList := by
    have hmark : Text.Solid ['='] := Text.solid_of_forall (by simp) (by simp; decide)
    simpa [head] using (Text.solid_trim hne).append (back ++ [' ']) hmark
  obtain ⟨kept, hkept, -, hliteral⟩ := Text.exists_trim_append hsolid (" " ++ literal)
  have hbehind : Text.trim (" " ++ literal) = Text.trim literal :=
    Text.trim_blanks_append [' '] (by simp; decide) (by simp)
  have hrest : Text.trim (target ++ " = " ++ literal) = head ++ "=" ++ kept := by
    rw [← hkept]
    exact Text.trim_blanks_append front hf (by simp [htarget, head])
  have hnone : '=' ∉ head.toList := by
    intro h
    rw [String.toList_append, String.toList_ofList, List.mem_append, List.mem_append,
      List.mem_singleton] at h
    rw [htarget] at hequals
    rcases h with h | h | h
    · exact hequals (List.mem_append_right _ (List.mem_append_left _ h))
    · exact hequals (List.mem_append_right _ (List.mem_append_right _ h))
    · exact absurd h (by decide)
  have hsplit := Text.splitOnce?_eq (p := (· = '=')) (c := '=') (s := head ++ "=" ++ kept)
    head kept (fun c hc => decide_eq_false fun he => hnone (he ▸ hc)) (by decide) (by simp)
  rw [hrest, splitBinding, hsplit]
  simp [hhead, hne, hliteral, hbehind]

section

variable [Alphabet]

variable {p : String} {q : PathExpr}

theorem isWord_trim_of_read (h : PathExpr.read p = .ok q) : IsWord (Text.trim p) := by
  obtain ⟨hne, hlegible, -⟩ := PathExpr.written_of_read h
  rw [PathExpr.trim_of_read h]
  refine ⟨?_, fun c => Path.isBlank_of_mem_text hlegible⟩
  intro hnil
  exact (Path.solid_text hne hlegible).ne_nil (by simp [hnil])

theorem noEquals_of_read (h : PathExpr.read p = .ok q) : '=' ∉ p.toList := by
  obtain ⟨-, hlegible, front, back, hf, hb, htext⟩ := PathExpr.written_of_read h
  rw [htext, List.mem_append, List.mem_append]
  rintro (hmem | hmem | hmem)
  · exact absurd (hf '=' hmem) (by decide)
  · rcases Path.forall_mem_text hlegible '=' hmem with hname | hpoint
    · exact Bool.eq_false_iff.1 (Text.isSubsequent_of_ascii (by decide)) hname
    · exact absurd hpoint (by decide)
  · exact absurd (hb '=' hmem) (by decide)

/-- A name, a path, an equals sign and a literal are split at that equals sign. -/
theorem splitBinding_target {n : String} (hn : '=' ∉ n.toList) (h : PathExpr.read p = .ok q)
    (literal : String) :
    splitBinding (Text.trim (n ++ " " ++ p ++ " = " ++ literal)) =
      .ok (Text.trim (n ++ " " ++ p), Text.trim literal) := by
  refine splitBinding_trim (fun hnil => ?_) ?_ literal
  · obtain ⟨hne, hword⟩ := isWord_trim_of_read h
    obtain ⟨c, cs, hcs⟩ := List.exists_cons_of_ne_nil (mt String.toList_eq_nil_iff.1 hne)
    have hmem : c ∈ (Text.trim p).toList := hcs ▸ List.mem_cons_self
    have hblank := Text.isBlank_of_trim_eq_empty hnil c (by simp [Text.mem_of_mem_trim hmem])
    exact absurd ((hword c hmem).symm.trans hblank) nofun
  · simpa using ⟨hn, noEquals_of_read h⟩

end

variable {v : RecordValue}

theorem within_ok_bind {α β ε : Type} (part : CommandPart) (source : String) (toError : ε → Error)
    (a : α) (f : α → Command β) :
    (within part source toError (.ok a) >>= f : Command β) = f a := rfl

theorem lens_eq [Alphabet] (v : RecordValue) (path : String) :
    lens v path = within .path path id (Lens.read v.type.ty path) := by
  cases hread : PathExpr.read path with
  | error e =>
    rw [lens, hread, Lens.read, hread]
    rfl
  | ok q =>
    rw [lens, hread, within_ok_bind, Lens.read_of_read hread]
    cases Lens.derive v.type.ty q <;> rfl

theorem outcome_value (name : String) :
    (value name).outcome s = match s.values.get? name with
      | some v => (.ok v, s)
      | none => (.error (.misuse (.unbound name)), s) := by
  have hget : (value name).outcome s = (match s.values.get? name with
      | some v => (pure v : Command RecordValue)
      | none => throw (CommandError.misuse (.unbound name))).outcome s := rfl
  rw [hget]
  cases s.values.get? name <;> rfl

theorem outcome_view [Alphabet] {text name path : String} (hsplit : splitWord text = (name, path))
    (hbound : s.values.get? name = some v) :
    (view text).outcome s =
      (((Lens.read v.type.ty (Text.trim path)).mapError fun e =>
          .failed e .path (Text.trim path)).map fun l => ⟨name, path, v, l⟩, s) := by
  have hvalue : (value name).outcome s = (.ok v, s) := by rw [outcome_value, hbound]
  rw [view, hsplit, Command.outcome_bind, hvalue]
  simp only [lens_eq]
  cases Lens.read v.type.ty (Text.trim path) <;> rfl

theorem exists_view_error [Alphabet] {text : String}
    (h : ∀ t l, Lens.read t (Text.trim (splitWord text).2) ≠ .ok l) :
    ∃ e, (view text).outcome s = (.error e, s) := by
  obtain ⟨⟨name, path⟩, hsplit⟩ : ∃ words, splitWord text = words := ⟨_, rfl⟩
  rw [hsplit] at h
  cases hbound : s.values.get? name with
  | none =>
    have hvalue : (value name).outcome s = (.error (.misuse (.unbound name)), s) := by
      rw [outcome_value, hbound]
    rw [view, hsplit]
    exact ⟨_, Command.outcome_bind_error _ hvalue⟩
  | some v =>
    rw [outcome_view hsplit hbound]
    cases hread : Lens.read v.type.ty (Text.trim path) with
    | error e => exact ⟨_, rfl⟩
    | ok l => exact absurd hread (h _ l)

theorem outcome_elaborating_ok {α ε : Type} {source : String} {toError : ε → Error}
    {x : Elaboration ε α} {a : α} :
    (elaborating source toError x).outcome s = (.ok a, s') ↔
      ∃ g, x.outcome s.registry = (.ok a, g) ∧ s' = { s with registry := g } := by
  rw [Command.outcome_elaborating]
  cases x.outcome s.registry with
  | mk result g => cases result <;> simp [Except.mapError, eq_comm]

variable [Alphabet]

theorem outcome_replacement_ok_iff {rest target literal : String} {r : Replacement}
    (hsplit : splitBinding rest = .ok (target, literal)) :
    (replacement rest).outcome s = (.ok r, s) ↔
      r.literal = literal ∧ (view target).outcome s = (.ok r.toView, s) ∧
        ∃ expr, Expr.read usualNesting literal = .ok expr ∧
          (expr.elaborate (some r.lens.target) []).outcome s.registry =
            (.ok r.leaf, s.registry) := by
  rw [replacement, hsplit, Command.ofExcept_ok_bind]
  constructor
  · intro h
    obtain ⟨v, middle, hv, h⟩ := Command.outcome_bind_ok.1 h
    obtain ⟨rfl, -⟩ := (ends_view target).of_ok v middle hv
    cases hread : Expr.read usualNesting literal with
    | error e =>
      rw [hread] at h
      cases h
    | ok expr =>
      rw [hread, within_ok_bind] at h
      obtain ⟨leaf, behind, hleaf, h⟩ := Command.outcome_bind_ok.1 h
      obtain ⟨g, hg, rfl⟩ := outcome_elaborating_ok.1 hleaf
      obtain ⟨hr, hs⟩ := Prod.mk.inj h
      obtain rfl := Except.ok.inj hr
      obtain rfl : g = s.registry := congrArg registry hs
      exact ⟨rfl, hv, expr, rfl, hg⟩
  · rintro ⟨rfl, hview, expr, hread, hleaf⟩
    refine Command.outcome_bind_ok.2 ⟨r.toView, s, hview, ?_⟩
    rw [hread, within_ok_bind]
    exact Command.outcome_bind_ok.2 ⟨r.leaf, s, outcome_elaborating_ok.2 ⟨_, hleaf, rfl⟩, rfl⟩

theorem exists_replacement_error {rest target literal : String}
    (hsplit : splitBinding rest = .ok (target, literal))
    (h : ∃ e, (view target).outcome s = (.error e, s)) :
    ∃ e, (replacement rest).outcome s = (.error e, s) := by
  obtain ⟨e, he⟩ := h
  rw [replacement, hsplit, Command.ofExcept_ok_bind]
  exact ⟨e, Command.outcome_bind_error _ he⟩

theorem exists_setField_ok_iff (hs : s.Sound) {rest : String} :
    (∃ out s', (setField rest).outcome s = (.ok out, s')) ↔
      ∃ r, (replacement rest).outcome s = (.ok r, s) := by
  constructor
  · rintro ⟨out, s', h⟩
    rw [setField_eq] at h
    obtain ⟨r, middle, hr, -⟩ := Command.outcome_bind_ok.1 h
    obtain ⟨rfl, -⟩ := (ends_replacement rest).of_ok r middle hr
    exact ⟨r, hr⟩
  · rintro ⟨r, hr⟩
    obtain ⟨updated, -, -, hset⟩ := outcome_setField hr hs
    exact ⟨_, _, hset⟩

theorem exists_getField_error {rest : String} (h : ∃ e, (view rest).outcome s = (.error e, s)) :
    ∃ e, (getField rest).outcome s = (.error e, s) := by
  obtain ⟨e, he⟩ := h
  rw [getField_eq]
  exact ⟨e, Command.outcome_bind_error _ he⟩

section

variable {n p literal : String} {q : PathExpr}

theorem run_get_target (n p : String) :
    run ("get " ++ n ++ " " ++ p) = getField (Text.trim (n ++ " " ++ p)) := by
  rw [← run_get]
  simp only [String.append_assoc]

theorem run_set_target (n p literal : String) :
    run ("set " ++ n ++ " " ++ p ++ " = " ++ literal) =
      setField (Text.trim (n ++ " " ++ p ++ " = " ++ literal)) := by
  rw [← run_set]
  simp only [String.append_assoc]

theorem exists_outcome_view (hn : IsWord n) (hbound : s.values.get? n = some v) (p : String) :
    ∃ behind, (view (Text.trim (n ++ " " ++ p))).outcome s =
      (((Lens.read v.type.ty (Text.trim p)).mapError fun e =>
          .failed e .path (Text.trim p)).map fun l => ⟨n, behind, v, l⟩, s) := by
  obtain ⟨behind, hsplit, htrim⟩ := exists_splitWord hn p
  exact ⟨behind, by rw [outcome_view hsplit hbound, htrim]⟩

theorem exists_view (hn : IsWord n) (hbound : s.values.get? n = some v) {l : Lens}
    (hl : Lens.read v.type.ty p = .ok l) :
    ∃ behind, (view (Text.trim (n ++ " " ++ p))).outcome s = (.ok ⟨n, behind, v, l⟩, s) := by
  obtain ⟨behind, hview⟩ := exists_outcome_view hn hbound p
  rw [Lens.read_of_trim_eq hl (Text.trim_trim p)] at hview
  exact ⟨behind, hview⟩

theorem of_replacement (hn : IsWord n) (hequals : '=' ∉ n.toList)
    (hbound : s.values.get? n = some v) (hread : PathExpr.read p = .ok q) {r : Replacement}
    (hr : (replacement (Text.trim (n ++ " " ++ p ++ " = " ++ literal))).outcome s = (.ok r, s)) :
    r.name = n ∧ r.value = v ∧ Lens.read v.type.ty p = .ok r.lens ∧
      ∃ expr, Expr.read usualNesting literal = .ok expr ∧
        (expr.elaborate (some r.lens.target) []).outcome s.registry = (.ok r.leaf, s.registry) := by
  obtain ⟨w, source, leaf⟩ := r
  obtain ⟨-, hview, hleaf⟩ :=
    (outcome_replacement_ok_iff (splitBinding_target hequals hread literal)).1 hr
  obtain ⟨behind, hw⟩ := exists_outcome_view hn hbound p
  cases hl : Lens.read v.type.ty (Text.trim p) with
  | error e =>
    rw [hl] at hw
    exact absurd (Prod.mk.inj (hview.symm.trans hw)).1 nofun
  | ok l =>
    rw [hl] at hw
    obtain rfl : w = ⟨n, behind, v, l⟩ := Except.ok.inj (Prod.mk.inj (hview.symm.trans hw)).1
    exact ⟨rfl, rfl, Lens.read_of_trim_eq hl (Text.trim_trim p).symm,
      Expr.exists_elaborate_trim_iff.1 hleaf⟩

theorem exists_replacement (hn : IsWord n) (hequals : '=' ∉ n.toList)
    (hbound : s.values.get? n = some v) {l : Lens} (hl : Lens.read v.type.ty p = .ok l)
    {leaf : Value}
    (hleaf : ∃ expr, Expr.read usualNesting literal = .ok expr ∧
      (expr.elaborate (some l.target) []).outcome s.registry = (.ok leaf, s.registry)) :
    ∃ r, (replacement (Text.trim (n ++ " " ++ p ++ " = " ++ literal))).outcome s = (.ok r, s) := by
  obtain ⟨q, hread, -⟩ := Lens.read_eq_ok_iff.1 hl
  obtain ⟨behind, hview⟩ := exists_view hn hbound hl
  have hsplit := splitBinding_target hequals hread literal
  exact ⟨⟨⟨n, behind, v, l⟩, _, leaf⟩, (outcome_replacement_ok_iff hsplit).2
    ⟨rfl, hview, Expr.exists_elaborate_trim_iff.2 hleaf⟩⟩

end

end Session

end RecordLens
