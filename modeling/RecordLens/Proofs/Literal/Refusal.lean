import RecordLens.Proofs.Literal.Printed

/-! Texts that the reader refuses. Where an item should stand and a text stands that begins none,
the reader fails there, however the text goes on. A printed record of which one item is such a text
is such a text too, if the others are read. -/

namespace RecordLens.Reader

variable [Alphabet]

open Text (Delimited commas)

variable {α β π γ : Type}

section

variable (g : Grammar α π) (limit : Nat) (accept : α → Except SyntaxError β)

/-- Whatever the tokens of the characters, the machine fails at one of them. -/
def Refuses (r : Reader α π) (cs : List Char) : Prop :=
  ∀ p tokens, Token.scanFrom p cs = .ok tokens → ∃ e, r.run g limit accept tokens = .error e

/-- Within `room` brackets the characters begin no item. -/
def Foils (cs : List Char) (room : Nat) : Prop :=
  ∀ frames rest, frames.length + room ≤ limit → Delimited rest →
    Refuses g limit accept ⟨frames, .item⟩ (cs ++ rest)

end

variable {g : Grammar α π} {limit : Nat} {accept : α → Except SyntaxError β} {r : Reader α π}
  {cs rest : List Char}

theorem Reads.refuses {middle : Reader α π → Prop} (h : Reads g limit accept r cs rest middle)
    (hmore : ∀ r', middle r' → Refuses g limit accept r' rest) :
    Refuses g limit accept r (cs ++ rest) := by
  intro p tokens hscan
  obtain ⟨front, r', hfront, hrun, hmiddle⟩ := h p
  obtain ⟨behind, hbehind, rfl⟩ := exists_of_map_eq_ok (hfront.symm.trans hscan)
  rw [hrun]
  exact hmore r' hmiddle _ behind hbehind

theorem Refuses.lexeme {l : Lexeme} (hcs : ∃ c tail, cs = c :: tail ∧ Text.isBlank c = false)
    (htake : Lexeme.take (cs ++ rest) = .ok (l, rest))
    (hstep : ∀ span, ∃ e, r.step g limit accept ⟨l, span⟩ = .error e) :
    Refuses g limit accept r (cs ++ rest) := by
  intro p tokens hscan
  obtain ⟨c, tail, rfl, hc⟩ := hcs
  rw [Token.scanFrom_take p hc htake] at hscan
  obtain ⟨behind, -, rfl⟩ := exists_of_map_eq_ok hscan
  obtain ⟨e, he⟩ := hstep (.covering p (c :: tail))
  exact ⟨e, by rw [run, he]⟩

theorem Foils.mono {room more : Nat} (h : Foils g limit accept cs room) (hle : room ≤ more) :
    Foils g limit accept cs more :=
  fun frames rest hroom hrest => h frames rest (by omega) hrest

theorem Foils.read {text : String} {room : Nat} (h : Foils g limit accept text.toList room)
    (hroom : room ≤ limit) : ∃ e, g.read limit accept text = .error e := by
  unfold Grammar.read
  cases hscan : Token.scan text with
  | error e => exact ⟨e, rfl⟩
  | ok tokens =>
    have hrefuses := h [] [] (by simpa using hroom) Text.delimited_nil
    rw [List.append_nil] at hrefuses
    exact hrefuses .start tokens hscan

section Lists

variable {text : γ → String} {good : γ → Prop} {xs : List γ}

/-- Pieces with commas between them are refused if one of them is. The states of which `before`
holds are those in which a piece may follow. -/
theorem refuses_commas (before : Reader α π → Prop)
    (hgood : ∀ y ∈ xs, good y → ∀ r, before r → ∀ rest,
      Reads g limit accept r ((text y).toList ++ [',', ' ']) rest before)
    (hbad : ∀ y ∈ xs, ¬good y → ∀ r, before r → ∀ rest, Delimited rest →
      Refuses g limit accept r ((text y).toList ++ rest))
    (hsome : ∃ y ∈ xs, ¬good y) (hr : before r) (hrest : Delimited rest) :
    Refuses g limit accept r ((commas (xs.map text)).toList ++ rest) := by
  induction xs generalizing r with
  | nil =>
    obtain ⟨y, hy, -⟩ := hsome
    exact absurd hy List.not_mem_nil
  | cons x xs ih =>
    by_cases hx : good x
    · -- then the piece that is refused stands behind the comma
      match xs, hsome with
      | [], ⟨y, hy, hny⟩ => exact absurd (List.mem_singleton.1 hy ▸ hx) hny
      | z :: zs, ⟨y, hy, hny⟩ =>
        have hmore : ∃ y ∈ z :: zs, ¬good y := by
          rcases List.mem_cons.1 hy with rfl | hy
          · exact absurd hx hny
          · exact ⟨y, hy, hny⟩
        have htext : (commas ((x :: z :: zs).map text)).toList ++ rest =
            ((text x).toList ++ [',', ' ']) ++ ((commas ((z :: zs).map text)).toList ++ rest) := by
          simp [commas, Text.joined]
        rw [htext]
        refine (hgood x List.mem_cons_self hx r hr _).refuses fun r' hr' => ?_
        exact ih (fun y hy => hgood y (List.mem_cons_of_mem x hy))
          (fun y hy => hbad y (List.mem_cons_of_mem x hy)) hmore hr'
    · have htext : ∃ tail, Delimited tail ∧
          (commas ((x :: xs).map text)).toList ++ rest = (text x).toList ++ tail := by
        cases xs with
        | nil => exact ⟨rest, hrest, by simp [commas, Text.joined]⟩
        | cons z zs =>
          exact ⟨_, delimited_of_punctuation (c := ',') rfl _, by simp [commas, Text.joined]; rfl⟩
      obtain ⟨tail, htail, htext⟩ := htext
      rw [htext]
      exact hbad x List.mem_cons_self hx r hr tail htail

variable {post : γ → α → Prop} {room : Nat} {name : γ → FieldName} {separator : String}
  (hgood : ∀ y ∈ xs, good y → Spells g limit accept (text y).toList room (post y))
  (hbad : ∀ y ∈ xs, ¬good y → Foils g limit accept (text y).toList room)
  (hsome : ∃ y ∈ xs, ¬good y)

include hgood hbad hsome

theorem Foils.tuple :
    Foils g limit accept ('(' :: ((commas (xs.map text)).toList ++ [')'])) (room + 1) := by
  intro frames rest hroom _
  have hopen : frames.length < limit := by omega
  -- an element may follow behind the opening parenthesis and behind every comma
  let before (r : Reader α π) : Prop := ∃ b done, r = ⟨.element b done :: frames, .item⟩
  have hlength (b : Bracket π) (done : List α) :
      (Frame.element b done :: frames).length + room ≤ limit := by
    simp only [List.length_cons]
    omega
  have hopening : Reads g limit accept ⟨frames, .item⟩ ['(']
      ((commas (xs.map text)).toList ++ ')' :: rest) before := by
    refine .punctuation rfl fun span => ⟨⟨.element ⟨span, none⟩ [] :: frames, .item⟩, ?_, ?_⟩
    · rw [opens_item frames _ rfl]
      simp [opened, hopen, Except.map]
    · exact .nil ⟨_, _, rfl⟩
  have hrefuses := hopening.refuses fun r hr => refuses_commas before
    (fun y hy hg r hr rest => ?_) (fun y hy hb r hr rest hrest => ?_) hsome hr
    (delimited_of_punctuation rfl rest)
  · simpa using hrefuses
  · obtain ⟨b, done, rfl⟩ := hr
    refine (hgood y hy hg _ _ (hlength b done)
      (delimited_of_punctuation (c := ',') rfl _)).append ?_
    rintro r ⟨item, hready, -⟩
    exact .punctuation rfl fun span =>
      ⟨_, hready _ (by simp), .blank (by decide) (.nil ⟨_, _, rfl⟩)⟩
  · obtain ⟨b, done, rfl⟩ := hr
    exact hbad y hy hb _ _ (hlength b done) hrest

theorem Foils.record (hsep : Separates g limit accept separator)
    (hnames : ∀ y ∈ xs, (name y).Legible) :
    Foils g limit accept ('{' :: ((commas (xs.map fun y =>
      (name y).text ++ separator ++ text y)).toList ++ ['}'])) (room + 1) := by
  intro frames rest hroom _
  have hopen : frames.length < limit := by omega
  let before (r : Reader α π) : Prop := ∃ b done, Names g limit accept frames b done r
  have hlength (b : Bracket π) (done : List (FieldExpr α)) (n : FieldName) (span : Span) :
      (Frame.field b done n span :: frames).length + room ≤ limit := by
    simp only [List.length_cons]
    omega
  have hopening : Reads g limit accept ⟨frames, .item⟩ ['{']
      ((commas (xs.map fun y => (name y).text ++ separator ++ text y)).toList ++ '}' :: rest)
      before := by
    refine .punctuation rfl fun span => ⟨⟨frames, .firstName ⟨span, none⟩⟩, ?_, ?_⟩
    · rw [opens_item frames _ rfl]
      simp [opened, hopen, Except.map]
    · exact .nil ⟨_, _, names_firstName frames ⟨span, none⟩⟩
  have hrefuses := hopening.refuses fun r hr => refuses_commas before
    (fun y hy hg r hr rest => ?_) (fun y hy hb r hr rest hrest => ?_) hsome hr
    (delimited_of_punctuation rfl rest)
  · simpa using hrefuses
  · obtain ⟨b, done, hr⟩ := hr
    have hd : Delimited ([',', ' '] ++ rest) := delimited_of_punctuation rfl _
    have hfield := hr.reads_field hsep (hnames y hy) (hgood y hy hg) hroom hd
    rw [String.toList_append, String.toList_append, List.append_assoc (name y).text.toList]
    refine hfield.append ?_
    rintro r ⟨span, item, hready, -⟩
    refine .punctuation rfl fun _ => ⟨_, hready _ (by simp), .blank (by decide) (.nil ?_)⟩
    exact ⟨b, _, names_nextName frames b _⟩
  · obtain ⟨b, done, hr⟩ := hr
    rw [String.toList_append, String.toList_append, List.append_assoc]
    refine (hr.reads_name hsep (hnames y hy) _).refuses ?_
    rintro r ⟨span, rfl⟩
    exact hbad y hy hb _ _ (hlength b done _ span) hrest

/-- A record is not read if one of its items begins none and the others are read. -/
theorem Foils.shown (hsep : Separates g limit accept separator)
    (hnames : FieldName.Coherent (xs.map name))
    (hlabels : ∀ s, .label s ∈ xs.map name → Text.IsIdentifier s) :
    Foils g limit accept (shown name separator text xs) (room + 1) := by
  unfold Reader.shown
  by_cases htuple : showsAsTuple (xs.map name)
  · rw [if_pos htuple]
    exact Foils.tuple hgood hbad hsome
  · rw [if_neg htuple]
    have hlegible := legible_of_not_showsAsTuple hnames hlabels (by simpa using htuple)
    exact Foils.record hgood hbad hsome hsep fun y hy => hlegible _ (List.mem_map_of_mem hy)

end Lists

end RecordLens.Reader
