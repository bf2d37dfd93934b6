import RecordLens.Proofs.Session.Bound

/-! Names that can be used again. Whatever stands in front of the equals sign becomes a name, with
blanks in it too, and nothing in front of a colon becomes the empty one; but `get` and `set` take
the first word for the name. What is bound to a name without blanks they find and read, and what is
bound to any other name they never do. -/

namespace RecordLens

open Text (IsWord)

namespace Session

variable {s : Session}

/-- Behind the first word of a name with blanks stands the rest of it, and no path; the empty name
leaves no path behind. -/
theorem not_isWord_behind {n p : String} (hn : Text.trim n = n) (hword : ¬IsWord n)
    (hp : IsWord (Text.trim p)) :
    ¬IsWord (Text.trim (splitWord (Text.trim (n ++ " " ++ p))).2) := by
  by_cases hnil : n = ""
  · subst hnil
    have htrim : Text.trim ("" ++ " " ++ p) = Text.trim p :=
      Text.trim_blanks_append [' '] (by simp; decide) (by simp)
    rw [htrim, splitWord_of_forall hp.2]
    exact fun h => h.1 rfl
  · have hsolid := Text.solid_of_trim_eq hn hnil
    obtain ⟨⟨word, rest⟩, hsplit⟩ : ∃ found, Text.splitOnce? Text.isBlank n = some found := by
      refine Option.ne_none_iff_exists'.1 fun hnone => hword ⟨hnil, ?_⟩
      exact Text.splitOnce?_eq_none.1 hnone
    obtain ⟨hfront, c, hc, hchars⟩ := Text.splitOnce?_eq_some hsplit
    have hrest : Text.trim rest ≠ "" := by
      rw [hchars] at hsolid
      exact hsolid.trim_ne_empty hc
    rcases trim_name_cases hsolid p with ⟨-, hp'⟩ | ⟨behind, htrim, hp'⟩
    · exact absurd hp' hp.1
    · have hwords : splitWord (n ++ " " ++ behind) = (word, rest ++ " " ++ behind) :=
        splitWord_of_toList hfront hc (by simp [hchars])
      rw [htrim, hwords]
      intro h
      -- the blank between the rest of the name and the path is not at an end, so trimming leaves it
      have hmem : ' ' ∈ (Text.trim (rest ++ " " ++ behind)).toList :=
        Text.mem_trim_of_between hrest (hp' ▸ hp.1) (by simp)
      exact absurd (h.2 ' ' hmem) (by decide)

variable {n p : String} {v : RecordValue} {l : Lens}

/-- Nothing is viewed under a name that is no word, whatever path stands behind it. -/
theorem exists_view_error_of_not_isWord [Alphabet] (hn : Text.trim n = n) (hword : ¬IsWord n)
    {q : PathExpr} (hp : PathExpr.read p = .ok q) :
    ∃ e, (view (Text.trim (n ++ " " ++ p))).outcome s = (.error e, s) := by
  refine exists_view_error fun t l hl => ?_
  obtain ⟨q', hread, -⟩ := Lens.read_eq_ok_iff.1 hl
  have hbehind := isWord_trim_of_read hread
  rw [Text.trim_trim] at hbehind
  exact not_isWord_behind hn hword (isWord_trim_of_read hp) hbehind

/-- In every session that inputs lead to, `get` reads a field of what is bound to a name if there is
no blank in the name and it is not empty, and otherwise fails. Then `set` fails too, while under
such a name it accepts every literal that is read and elaborated at the type of the field. -/
theorem Reachable.addressed_iff_word [Alphabet] (h : s.Reachable)
    (hbound : s.values.get? n = some v) (hl : Lens.read v.type.ty p = .ok l) :
    (IsWord n → ∃ field, l.get v.value = .ok field ∧
      (Session.run ("get " ++ n ++ " " ++ p)).outcome s =
        (.ok (field.text ++ " :: " ++ l.target.text), s)) ∧
    (¬IsWord n → ∃ e, (Session.run ("get " ++ n ++ " " ++ p)).outcome s = (.error e, s)) ∧
    ∀ literal,
      (∃ out s', (Session.run ("set " ++ n ++ " " ++ p ++ " = " ++ literal)).outcome s =
        (.ok out, s')) ↔
      IsWord n ∧ ∃ expr leaf, Expr.read usualNesting literal = .ok expr ∧
        (expr.elaborate (some l.target) []).outcome s.registry = (.ok leaf, s.registry) := by
  have hs := h.sound
  obtain ⟨q, hread, -⟩ := Lens.read_eq_ok_iff.1 hl
  have hname := h.bindable hbound
  have hrefused (hn : ¬IsWord n) :
      ∃ e, (view (Text.trim (n ++ " " ++ p))).outcome s = (.error e, s) :=
    exists_view_error_of_not_isWord hname.trimmed hn hread
  rw [run_get_target]
  refine ⟨fun hn => ?_, fun hn => exists_getField_error (hrefused hn), fun literal => ?_⟩
  · obtain ⟨behind, hview⟩ := exists_view hn hbound hl
    exact outcome_getField hview hs
  · rw [run_set_target, exists_setField_ok_iff hs]
    constructor
    · rintro ⟨r, hr⟩
      by_cases hn : IsWord n
      · obtain ⟨-, -, hlens, expr, hexpr⟩ := of_replacement hn hname.noEquals hbound hread hr
        obtain rfl := Except.ok.inj (hl.symm.trans hlens)
        exact ⟨hn, expr, r.leaf, hexpr⟩
      · obtain ⟨e, he⟩ := exists_replacement_error
          (splitBinding_target hname.noEquals hread literal) (hrefused hn)
        exact absurd (Prod.mk.inj (hr.symm.trans he)).1 nofun
    · rintro ⟨hn, expr, leaf, hexpr⟩
      exact exists_replacement hn hname.noEquals hbound hl ⟨expr, hexpr⟩

def countType : RecordType := ⟨.registry 0, 0, [⟨.label "x", .primitive .int⟩]⟩

def one : RecordValue := ⟨countType, [.scalar (.int 1)]⟩

def countLens : Lens := ⟨countType.ty, .primitive .int, [.label "x"], [0]⟩

/-- A value is bound to a name with a blank, to the empty name, and to a word. -/
def stranded : Session :=
  ⟨⟨.registry 0, [countType.fields]⟩, [], [("a b", one), ("", one), ("c", one)]⟩

theorem reachable_stranded : stranded.Reachable := by
  let first : Session := ⟨stranded.registry, [], [("a b", one)]⟩
  let second : Session := ⟨stranded.registry, [], [("a b", one), ("", one)]⟩
  have hblank : ((Session.run "let a b = \x7bx = 1\x7d").outcome empty).2 = first := by
    decide +kernel
  have hempty : ((Session.run "let : \x7bx :: Int\x7d = \x7bx = 1\x7d").outcome first).2 =
      second := by decide +kernel
  have hword : ((Session.run "let c = \x7bx = 1\x7d").outcome second).2 = stranded := by
    decide +kernel
  exact hword ▸ .run (hempty ▸ .run (hblank ▸ .run .empty _) _) _

/-- The word is found by `get` and `set`, and the other names are not. -/
theorem Reachable.addressed_iff_word_stranded :
    stranded.Reachable ∧ Lens.read one.type.ty "x" = .ok countLens ∧
      (∃ field, (Session.run ("get " ++ "c" ++ " " ++ "x")).outcome stranded =
        (.ok (field ++ " :: " ++ "Int"), stranded)) ∧
      (∃ out s', (Session.run ("set " ++ "c" ++ " " ++ "x" ++ " = " ++ "2")).outcome stranded =
        (.ok out, s')) ∧
      (∃ e, (Session.run ("get " ++ "a b" ++ " " ++ "x")).outcome stranded =
        (.error e, stranded)) ∧
      ∃ e, (Session.run ("get " ++ "" ++ " " ++ "x")).outcome stranded = (.error e, stranded) := by
  have hread : Lens.read one.type.ty "x" = .ok countLens := by decide +kernel
  have hword : IsWord "c" := by decide +kernel
  have hblank : ¬IsWord "a b" := by decide +kernel
  have hempty : ¬IsWord "" := by decide +kernel
  have htwo : Expr.read usualNesting "2" = .ok (.scalar (.int 2) ⟨⟨1, 1, 0⟩, 1⟩) := by
    decide +kernel
  obtain ⟨hget, -, hset⟩ :=
    reachable_stranded.addressed_iff_word (n := "c") (v := one) (by decide +kernel) hread
  obtain ⟨-, hrefused, -⟩ :=
    reachable_stranded.addressed_iff_word (n := "a b") (v := one) (by decide +kernel) hread
  obtain ⟨-, hrefused', -⟩ :=
    reachable_stranded.addressed_iff_word (n := "") (v := one) (by decide +kernel) hread
  obtain ⟨field, -, hfield⟩ := hget hword
  have htext : countLens.target.text = "Int" := by decide +kernel
  rw [htext] at hfield
  refine ⟨reachable_stranded, hread, ⟨field.text, hfield⟩, ?_, hrefused hblank, hrefused' hempty⟩
  exact (hset "2").2 ⟨hword, _, .scalar (.int 2), htwo, rfl⟩

/-- So a value can be bound to a name under which no field of it is read. -/
theorem stranded_not_addressed :
    stranded.Reachable ∧ stranded.values.get? "a b" = some one ∧
      Lens.read one.type.ty "x" = .ok countLens ∧
      (∀ out s', (Session.run ("get " ++ "a b" ++ " " ++ "x")).outcome stranded ≠ (.ok out, s')) ∧
      stranded.values.get? "" = some one ∧
      ∀ out s', (Session.run ("get " ++ "" ++ " " ++ "x")).outcome stranded ≠ (.ok out, s') := by
  have hread : Lens.read one.type.ty "x" = .ok countLens := by decide +kernel
  have hblank : (Session.run ("get " ++ "a b" ++ " " ++ "x")).outcome stranded =
      (.error (.misuse (.unbound "a")), stranded) := by decide +kernel
  have hempty : (Session.run ("get " ++ "" ++ " " ++ "x")).outcome stranded =
      (.error (.misuse (.unbound "x")), stranded) := by decide +kernel
  refine ⟨reachable_stranded, by decide +kernel, hread, fun out s' h => ?_, by decide +kernel,
    fun out s' h => ?_⟩
  · cases hblank.symm.trans h
  · cases hempty.symm.trans h

end Session

end RecordLens
