import RecordLens.Proofs.Path.Reading
import RecordLens.Proofs.Text.Blank
import RecordLens.Text.Unicode

/-! Paths as they are printed: legible names with points between them. A text is read as a path if
and only if this is what is left of it without the blanks around it. -/

namespace RecordLens

section

variable [Alphabet]

namespace FieldName

theorem Legible.forall_isSubsequent {n : FieldName} (h : n.Legible) :
    ∀ c ∈ n.text.toList, Text.isSubsequent c = true := by
  cases n with
  | label s => exact Text.IsIdentifier.forall_isSubsequent h
  | position n =>
    intro c hc
    rw [text, toList_toString_nat] at hc
    exact Text.isSubsequent_of_isDigit (isDigit_of_mem_toDigits hc)

theorem Legible.text_ne_nil {n : FieldName} (h : n.Legible) : n.text.toList ≠ [] := by
  obtain ⟨c, cs, hcs, -⟩ := h.text_eq_cons
  simp [hcs]

theorem WrittenAs.legible {n : FieldName} {digits : String} (h : n.WrittenAs (.integer digits))
    (hdigits : IsDigits digits.toList) : n.Legible := by
  cases h with
  | position hzero hbound =>
    refine ⟨Nat.pos_of_ne_zero fun hvalue => hzero ?_, hbound⟩
    rw [← toDigits_digitsValue hdigits hzero, hvalue]
    rfl

end FieldName

namespace Segment

theorem take_text {n : FieldName} (h : n.Legible) {rest : List Char}
    (hrest : ∀ c, rest.head? = some c → Text.isSubsequent c = false) (p : Position) :
    take p (n.text.toList ++ rest) = .ok (⟨n, .covering p n.text.toList⟩, rest) := by
  cases n with
  | label s =>
    have hname := Text.IsIdentifier.identifier?_append h hrest
    rw [take, FieldName.text, hname]
    simp
  | position n =>
    obtain ⟨hpositive, hbound⟩ := h
    obtain ⟨hne, hdigits⟩ := isDigits_toDigits n
    have hdelimited : ∀ c, rest.head? = some c → c.isDigit = false := fun c hc =>
      Text.isDigit_of_isSubsequent_eq_false (hrest c hc)
    obtain ⟨htake, hdrop⟩ := Text.takeWhile_append hdigits hdelimited
    obtain ⟨d, ds, hcons⟩ := List.exists_cons_of_ne_nil hne
    have hinitial : Text.isInitial d = false :=
      Text.isInitial_of_isDigit (hdigits d (hcons ▸ List.mem_cons_self))
    have hname : Text.identifier? (Nat.toDigits 10 n ++ rest) = none := by
      simp [hcons, Text.identifier?, hinitial]
    have hofDigits := FieldName.ofDigits_toString hpositive hbound
      (.covering p (Nat.toDigits 10 n))
    rw [← String.ofList_toList (s := toString n), toList_toString_nat] at hofDigits
    rw [take, FieldName.text, toList_toString_nat, hname]
    simp [htake, hdrop, hne, hofDigits]

theorem legible_of_take {p : Position} {cs rest : List Char} {s : Segment}
    (h : take p cs = .ok (s, rest)) : s.name.Legible ∧ cs = s.name.text.toList ++ rest := by
  unfold take at h
  split at h
  · next name behind hname =>
    obtain ⟨rfl, rfl⟩ := Prod.mk.inj (Except.ok.inj h)
    refine ⟨Text.isIdentifier_of_identifier? hname, ?_⟩
    rw [FieldName.text, String.toList_ofList]
    exact (Text.append_of_identifier? hname).symm
  · simp only at h
    split at h
    · cases h
    · next hne =>
      split at h
      · cases h
      · next name hname =>
        obtain ⟨rfl, rfl⟩ := Prod.mk.inj (Except.ok.inj h)
        have hdigits : IsDigits (String.ofList (cs.takeWhile Char.isDigit)).toList := by
          rw [String.toList_ofList]
          exact ⟨by simpa using hne, List.all_eq_true.1 List.all_takeWhile⟩
        have hwritten := FieldName.ofDigits_eq_ok_iff.1 hname
        refine ⟨hwritten.legible hdigits, ?_⟩
        rw [hwritten.text_eq_digits hdigits, String.toList_ofList]
        exact List.takeWhile_append_dropWhile.symm

end Segment

end

namespace Path

theorem toList_text_cons_cons (m n : FieldName) (p : Path) :
    (Path.text (m :: n :: p)).toList = m.text.toList ++ '.' :: (Path.text (n :: p)).toList := by
  rw [Path.text, List.map_cons, List.map_cons, Text.joined_cons_cons]
  simp [Path.text]

variable [Alphabet]

theorem forall_mem_text {p : Path} (h : ∀ n ∈ p, n.Legible) :
    ∀ c ∈ p.text.toList, Text.isSubsequent c = true ∨ c = '.' := by
  induction p with
  | nil => exact nofun
  | cons m p ih =>
    obtain ⟨hm, hp⟩ := List.forall_mem_cons.1 h
    cases p with
    | nil => exact fun c hc => .inl (hm.forall_isSubsequent c hc)
    | cons n p =>
      rw [toList_text_cons_cons]
      intro c hc
      rcases List.mem_append.1 hc with hc | hc
      · exact .inl (hm.forall_isSubsequent c hc)
      · rcases List.mem_cons.1 hc with rfl | hc
        · exact .inr rfl
        · exact ih hp c hc

theorem isBlank_of_mem_text {p : Path} (h : ∀ n ∈ p, n.Legible) {c : Char}
    (hc : c ∈ p.text.toList) : Text.isBlank c = false := by
  rcases forall_mem_text h c hc with hc | rfl
  · exact Text.isBlank_of_isSubsequent hc
  · decide

theorem solid_text {p : Path} (hne : p ≠ []) (h : ∀ n ∈ p, n.Legible) :
    Text.Solid p.text.toList := by
  refine Text.solid_of_forall ?_ fun c => isBlank_of_mem_text h
  obtain ⟨m, p, rfl⟩ := List.exists_cons_of_ne_nil hne
  have hm := (h m List.mem_cons_self).text_ne_nil
  cases p with
  | nil => exact hm
  | cons n p =>
    rw [toList_text_cons_cons]
    exact List.append_ne_nil_of_left_ne_nil hm _

end Path

namespace PathExpr

@[simp] theorem path_cons (s : Segment) (q : PathExpr) :
    path (s :: q) = s.name :: q.path := rfl

section

variable [Alphabet]

theorem readFrom_point {p : Position} {cs rest : List Char} {s : Segment}
    (h : Segment.take p cs = .ok (s, '.' :: rest)) :
    readFrom p cs =
      (readFrom ((p.after (Token.taken cs ('.' :: rest))).next '.') rest).map (s :: ·) := by
  rw [readFrom]
  split
  · next e he => cases h.symm.trans he
  · next s' rest' hs =>
    obtain ⟨rfl, htail⟩ := Prod.mk.inj (Except.ok.inj (h.symm.trans hs))
    obtain rfl := List.tail_eq_of_cons_eq htail
    split <;> simp_all [Except.map]
  · next s' rest' hnot hs =>
    obtain ⟨rfl, rfl⟩ := Prod.mk.inj (Except.ok.inj (h.symm.trans hs))
    exact absurd rfl (hnot rest)

theorem readFrom_blanks {p : Position} {cs rest : List Char} {s : Segment}
    (h : Segment.take p cs = .ok (s, rest)) (hblank : ∀ c ∈ rest, Text.isBlank c = true) :
    readFrom p cs = .ok [s] := by
  rw [readFrom]
  split
  · next e he => cases h.symm.trans he
  · next s' rest' hs =>
    obtain ⟨rfl, rfl⟩ := Prod.mk.inj (Except.ok.inj (h.symm.trans hs))
    exact absurd (hblank '.' List.mem_cons_self) (by decide)
  · next s' rest' _ hs =>
    obtain ⟨rfl, rfl⟩ := Prod.mk.inj (Except.ok.inj (h.symm.trans hs))
    rw [if_pos (List.all_eq_true.2 hblank)]

/-- What is read as a path is the path as it is printed, and blanks behind it. -/
theorem written_of_readFrom {p : Position} {cs : List Char} {q : PathExpr}
    (h : readFrom p cs = .ok q) :
    q.path ≠ [] ∧ (∀ n ∈ q.path, n.Legible) ∧
      ∃ back, (∀ c ∈ back, Text.isBlank c = true) ∧ cs = q.path.text.toList ++ back := by
  fun_induction readFrom p cs generalizing q with
  | case1 => cases h
  | case2 => cases h
  | case3 p cs segment rest htake segments hread ih =>
    obtain rfl := Except.ok.inj h
    obtain ⟨hlegible, rfl⟩ := Segment.legible_of_take htake
    obtain ⟨hne, hnames, back, hback, rfl⟩ := ih hread
    obtain ⟨n, path, hpath⟩ := List.exists_cons_of_ne_nil hne
    refine ⟨List.cons_ne_nil _ _, List.forall_mem_cons.2 ⟨hlegible, hnames⟩, back, hback, ?_⟩
    rw [path_cons, hpath, Path.toList_text_cons_cons, ← hpath, List.append_assoc, List.cons_append]
  | case4 p cs segment rest _ htake hblank =>
    obtain rfl := Except.ok.inj h
    obtain ⟨hlegible, rfl⟩ := Segment.legible_of_take htake
    exact ⟨List.cons_ne_nil _ _, List.forall_mem_singleton.2 hlegible, rest,
      List.all_eq_true.1 hblank, rfl⟩
  | case5 => cases h

/-- A printed path with blanks behind it is read as that path. -/
theorem exists_readFrom_text {path : Path} (hne : path ≠ []) (h : ∀ n ∈ path, n.Legible)
    {back : List Char} (hback : ∀ c ∈ back, Text.isBlank c = true) (p : Position) :
    ∃ q, readFrom p (path.text.toList ++ back) = .ok q ∧ q.path = path := by
  induction path generalizing p with
  | nil => exact absurd rfl hne
  | cons m path ih =>
    obtain ⟨hm, hpath⟩ := List.forall_mem_cons.1 h
    cases path with
    | nil =>
      have hdelimited : ∀ c, back.head? = some c → Text.isSubsequent c = false := fun c hc =>
        Text.isSubsequent_of_isBlank (hback c (List.mem_of_mem_head? hc))
      exact ⟨_, readFrom_blanks (Segment.take_text hm hdelimited p) hback, rfl⟩
    | cons n path =>
      obtain ⟨q, hq, hnames⟩ := ih (List.cons_ne_nil n path) hpath _
      have hdelimited : ∀ c,
          ('.' :: ((Path.text (n :: path)).toList ++ back)).head? = some c →
            Text.isSubsequent c = false := by
        intro c hc
        obtain rfl := Option.some.inj hc
        exact Text.isSubsequent_of_ascii (by decide)
      have htake := Segment.take_text hm hdelimited p
      rw [Path.toList_text_cons_cons, List.append_assoc, List.cons_append, readFrom_point htake, hq]
      exact ⟨_, rfl, by rw [path_cons, hnames]⟩

theorem written_of_read {text : String} {q : PathExpr} (h : read text = .ok q) :
    q.path ≠ [] ∧ (∀ n ∈ q.path, n.Legible) ∧
      ∃ front back, (∀ c ∈ front, Text.isBlank c = true) ∧ (∀ c ∈ back, Text.isBlank c = true) ∧
        text.toList = front ++ (q.path.text.toList ++ back) := by
  obtain ⟨hne, hnames, back, hback, hcs⟩ := written_of_readFrom h
  refine ⟨hne, hnames, text.toList.takeWhile Text.isBlank, back,
    List.all_eq_true.1 List.all_takeWhile, hback, ?_⟩
  rw [← hcs, List.takeWhile_append_dropWhile]

theorem trim_of_read {text : String} {q : PathExpr} (h : read text = .ok q) :
    Text.trim text = q.path.text := by
  obtain ⟨hne, hnames, front, back, hfront, hback, htext⟩ := written_of_read h
  exact Text.trim_eq (Path.solid_text hne hnames) front back hfront hback htext

theorem exists_read_of_trim {text : String} {path : Path} (hne : path ≠ [])
    (h : ∀ n ∈ path, n.Legible) (htrim : Text.trim text = path.text) :
    ∃ q, read text = .ok q ∧ q.path = path := by
  obtain ⟨front, back, hfront, hback, htext⟩ := Text.exists_of_trim text
  obtain ⟨⟨c, hhead, hc⟩, -⟩ := Path.solid_text hne h
  have hdrop : text.toList.dropWhile Text.isBlank = path.text.toList ++ back := by
    rw [htext, htrim]
    refine (Text.takeWhile_append hfront fun d hd => ?_).2
    obtain rfl : c = d := by simpa [hhead] using hd
    exact hc
  obtain ⟨q, hq, hpath⟩ := exists_readFrom_text hne h hback
    (Position.start.after (text.toList.takeWhile Text.isBlank))
  exact ⟨q, by rw [read, hdrop, hq], hpath⟩

theorem exists_read_text {path : Path} (hne : path ≠ []) (h : ∀ n ∈ path, n.Legible) :
    ∃ q, read path.text = .ok q ∧ q.path = path :=
  exists_read_of_trim hne h (Path.solid_text hne h).trim_eq_self

/-- A text is read as a path if and only if it prints that path, apart from blanks around it, and
the path can be printed: its labels are identifiers, and its positions count from one and fit in 32
bits. Each segment stands where its name is printed, and no text is the path without names. -/
theorem reads_exactly_printed (text : String) :
    (∀ path : Path, path ≠ [] →
      ((∃ q, read text = .ok q ∧ q.path = path) ↔
        (∀ n ∈ path, n.Legible) ∧ Text.trim text = path.text)) ∧
    ∀ q, read text = .ok q → q.path ≠ [] ∧
      ∀ (i : Nat) (n : FieldName), q.path[i]? = some n → ∃ s, q[i]? = some s ∧
        Text.slice? s.span.offset s.span.length text.toList = some n.text.toList := by
  refine ⟨fun path hne => ⟨?_, fun ⟨hnames, htrim⟩ => exists_read_of_trim hne hnames htrim⟩,
    fun q h => ⟨(written_of_read h).1, fun i n hn => ?_⟩⟩
  · rintro ⟨q, h, rfl⟩
    exact ⟨(written_of_read h).2.1, trim_of_read h⟩
  · rw [path, List.getElem?_map, Option.map_eq_some_iff] at hn
    obtain ⟨s, hs, rfl⟩ := hn
    have hspelled : q.Spelled text.toList := (h ▸ located_read text).of_ok
    exact ⟨s, hs, (hspelled s (List.mem_of_getElem? hs)).slice?_eq⟩

end

/-- A path through a tuple and a label with a prime is read from between blanks, and its last
segment is read where it stands; no path is read where a position has a leading zero. -/
theorem reads_exactly_printed_primed :
    (∃ q, read "\n 2.y'.10 " = .ok q ∧ q.path = [.position 2, .label "y'", .position 10] ∧
      ∃ s, q[2]? = some s ∧
        Text.slice? s.span.offset s.span.length "\n 2.y'.10 ".toList = some "10".toList) ∧
      ∀ q, read "2.y'.010" = .ok q → q.path ≠ [.position 2, .label "y'", .position 10] := by
  let path : Path := [.position 2, .label "y'", .position 10]
  have hlegible : ∀ n ∈ path, n.Legible := by decide +kernel
  have htrim : Text.trim "\n 2.y'.10 " = path.text := by decide +kernel
  have hother : Text.trim "2.y'.010" ≠ path.text := by decide +kernel
  obtain ⟨hiff, hspans⟩ := reads_exactly_printed "\n 2.y'.10 "
  obtain ⟨q, hq, hpath⟩ := (hiff path (by decide)).2 ⟨hlegible, htrim⟩
  refine ⟨⟨q, hq, hpath, (hspans q hq).2 2 (.position 10) (by rw [hpath]; rfl)⟩, ?_⟩
  intro q' hq' hpath'
  exact hother (((reads_exactly_printed "2.y'.010").1 path (by decide)).1 ⟨q', hq', hpath'⟩).2

end PathExpr

end RecordLens
