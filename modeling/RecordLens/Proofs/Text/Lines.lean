import RecordLens.Proofs.Text.Identifier
import RecordLens.Text.Slice

/-! Lines of a text. Every place of a text is in one line, whose content is the line of that number
that the text is cut into: the one behind as many line feeds. Behind a feed that ends the text this
is an empty line, which the text is not cut into. -/

namespace RecordLens.Text

/-- A line stands behind `before`. It is ended by a feed, by a return and a feed, or by the end of
the text, and its content has no part in that. -/
structure IsLine (source before content ending : List Char) : Prop where
  begins : before = [] ∨ before.getLast? = some '\n'
  noFeed : '\n' ∉ content
  ends : ending = [] ∧ source = before ++ content ∨
    ∃ after, source = before ++ content ++ ending ++ after ∧
      (ending = ['\n'] ∧ content.getLast? ≠ some '\r' ∨ ending = ['\r', '\n'])

inductive Whole : List Char → Prop
  | nil : Whole []
  | line {cs rest : List Char} (hcs : '\n' ∉ cs) (h : Whole rest) : Whole (cs ++ '\n' :: rest)

theorem Whole.begins {cs : List Char} (h : Whole cs) : cs = [] ∨ cs.getLast? = some '\n' := by
  induction h with
  | nil => exact .inl rfl
  | line _ _ ih =>
    refine .inr ?_
    rw [List.getLast?_append, List.getLast?_cons]
    rcases ih with rfl | hlast
    · rfl
    · rw [hlast]
      rfl

theorem exists_whole_append (cs : List Char) :
    ∃ before head, cs = before ++ head ∧ Whole before ∧ '\n' ∉ head := by
  induction cs with
  | nil => exact ⟨[], [], rfl, .nil, List.not_mem_nil⟩
  | cons c cs ih =>
    obtain ⟨before, head, rfl, hbefore, hhead⟩ := ih
    by_cases hc : c = '\n'
    · exact ⟨'\n' :: before, head, by rw [hc]; rfl, .line List.not_mem_nil hbefore, hhead⟩
    · cases hbefore with
      | nil => exact ⟨[], c :: head, rfl, .nil, by simp [Ne.symm hc, hhead]⟩
      | @line row rest hrow hrest =>
        have hmore : '\n' ∉ c :: row := by simp [Ne.symm hc, hrow]
        exact ⟨c :: row ++ '\n' :: rest, head, rfl, .line hmore hrest, hhead⟩

theorem exists_line_append (cs : List Char) :
    ∃ row, '\n' ∉ row ∧ (cs = row ∨ ∃ rest, cs = row ++ '\n' :: rest) := by
  by_cases hfeed : '\n' ∈ cs
  · obtain ⟨row, rest, rfl, hrow⟩ := List.eq_append_cons_of_mem hfeed
    exact ⟨row, hrow, .inr ⟨rest, rfl⟩⟩
  · exact ⟨cs, hfeed, .inl rfl⟩

def dropReturn (row : List Char) : List Char :=
  if row.getLast? = some '\r' then row.dropLast else row

theorem dropReturn_cons (c : Char) {row : List Char} (h : row ≠ []) :
    dropReturn (c :: row) = c :: dropReturn row := by
  unfold dropReturn
  rw [List.getLast?_cons_of_ne_nil h, List.dropLast_cons_of_ne_nil h]
  split <;> rfl

theorem lines_cons {c : Char} {rest : List Char} (hc : c ≠ '\n')
    (hreturn : c = '\r' → rest.head? ≠ some '\n') :
    lines (c :: rest) =
      match lines rest with
      | [] => [[c]]
      | line :: more => (c :: line) :: more := by
  refine lines.eq_4 c rest hc fun tail hr hrest => hreturn hr ?_
  rw [hrest]
  rfl

theorem lines_feed {row : List Char} (h : '\n' ∉ row) (rest : List Char) :
    lines (row ++ '\n' :: rest) = dropReturn row :: lines rest := by
  induction row with
  | nil => rw [List.nil_append, lines]; rfl
  | cons c row ih =>
    have hc : c ≠ '\n' := Ne.symm (List.ne_of_not_mem_cons h)
    have hrow : '\n' ∉ row := List.not_mem_of_not_mem_cons h
    by_cases hnil : row = []
    · obtain rfl := hnil
      by_cases hreturn : c = '\r'
      · rw [hreturn, List.singleton_append, lines]
        rfl
      · rw [List.singleton_append, lines_cons hc fun h => absurd h hreturn, lines]
        simp [dropReturn, hreturn]
    · obtain ⟨d, row, rfl⟩ := List.exists_cons_of_ne_nil hnil
      have hd : (d :: row ++ '\n' :: rest).head? ≠ some '\n' := fun he =>
        hrow (Option.some.inj he ▸ List.mem_cons_self)
      rw [List.cons_append, lines_cons hc fun _ => hd, ih hrow, dropReturn_cons c hnil]

theorem lines_of_not_mem {row : List Char} (h : '\n' ∉ row) (hne : row ≠ []) :
    lines row = [row] := by
  induction row with
  | nil => exact absurd rfl hne
  | cons c row ih =>
    have hc : c ≠ '\n' := Ne.symm (List.ne_of_not_mem_cons h)
    have hrow : '\n' ∉ row := List.not_mem_of_not_mem_cons h
    have hhead : row.head? ≠ some '\n' := fun he => hrow (List.mem_of_head? he)
    rw [lines_cons hc fun _ => hhead]
    by_cases hnil : row = []
    · rw [hnil, lines]
    · rw [ih hrow hnil]

theorem getElem?_lines_append {before : List Char} (h : Whole before) (rest : List Char) :
    (lines (before ++ rest))[before.count '\n']? = (lines rest)[0]? := by
  induction h with
  | nil => rfl
  | @line row more hrow _ ih =>
    have hcount : row.count '\n' = 0 := List.count_eq_zero.2 hrow
    rw [List.append_assoc, List.cons_append, lines_feed hrow, List.count_append, hcount,
      List.count_cons_self, Nat.zero_add, List.getElem?_cons_succ, ih]

/-- Every place is in a line, and the text is cut into the content of the line where its number
says. -/
theorem exists_isLine (front back : List Char) :
    ∃ before content ending head, IsLine (front ++ back) before content ending ∧
      front = before ++ head ∧ head <+: content ++ ending ∧ '\n' ∉ head ∧
      ((lines (front ++ back))[front.count '\n']?).getD [] = content := by
  obtain ⟨before, head, rfl, hbefore, hhead⟩ := exists_whole_append front
  obtain ⟨tail, htail, hback⟩ := exists_line_append back
  have hrow : '\n' ∉ head ++ tail := by simp [hhead, htail]
  have hcount : (before ++ head).count '\n' = before.count '\n' := by
    rw [List.count_append, List.count_eq_zero.2 hhead, Nat.add_zero]
  rw [hcount, List.append_assoc, getElem?_lines_append hbefore]
  rcases hback with rfl | ⟨rest, rfl⟩
  · refine ⟨before, head ++ back, [], head, ⟨hbefore.begins, hrow, .inl ⟨rfl, rfl⟩⟩, rfl, ?_,
      hhead, ?_⟩
    · rw [List.append_nil]
      exact List.prefix_append head back
    · by_cases hnil : head ++ back = []
      · rw [hnil, lines]
        rfl
      · rw [lines_of_not_mem hrow hnil]
        rfl
  · rw [← List.append_assoc head, lines_feed hrow]
    by_cases hreturn : (head ++ tail).getLast? = some '\r'
    · obtain ⟨content, hcontent⟩ := List.getLast?_eq_some_iff.1 hreturn
      have hdrop : dropReturn (head ++ tail) = content := by
        rw [dropReturn, if_pos hreturn, hcontent, List.dropLast_concat]
      have hnone : '\n' ∉ content := fun hmem => hrow (hcontent ▸ List.mem_append_left _ hmem)
      refine ⟨before, content, ['\r', '\n'], head,
        ⟨hbefore.begins, hnone, .inr ⟨rest, ?_, .inr rfl⟩⟩, rfl, ?_, hhead, hdrop⟩
      · simp [hcontent]
      · refine ⟨tail ++ ['\n'], ?_⟩
        rw [← List.append_assoc, hcontent]
        simp
    · refine ⟨before, head ++ tail, ['\n'], head,
        ⟨hbefore.begins, hrow, .inr ⟨rest, by simp, .inl ⟨rfl, hreturn⟩⟩⟩, rfl, ?_, hhead, ?_⟩
      · exact (List.prefix_append head tail).trans (List.prefix_append _ _)
      · rw [dropReturn, if_neg hreturn]
        rfl

theorem takeWhile_reverse_append {before head : List Char}
    (hbefore : before = [] ∨ before.getLast? = some '\n') (hhead : '\n' ∉ head) :
    (before ++ head).reverse.takeWhile (· ≠ '\n') = head.reverse := by
  rw [List.reverse_append]
  refine (takeWhile_append (fun c hc => ?_) fun c hc => ?_).1
  · have hne : c ≠ '\n' := fun he => hhead (he ▸ List.mem_reverse.1 hc)
    simpa using hne
  · rw [List.head?_reverse] at hc
    rcases hbefore with rfl | hlast
    · cases hc
    · obtain rfl := Option.some.inj (hc.symm.trans hlast)
      rfl

end RecordLens.Text
