import Mathlib.Data.List.Forall2
import RecordLens.Literal.Grammar
import RecordLens.Proofs.Literal.Names

/-! What the reader makes of a text that goes on. A text leads from one state of the machine to
another, wherever it stands and whatever follows; texts in a row lead through the states between.
From that follow the rules for items, for bracketed items and for the lists inside brackets, for
types and values alike. -/

namespace RecordLens.Reader

open Text (Delimited commas)

variable [Alphabet] {α β π γ : Type}

section

variable (g : Grammar α π) (limit : Nat) (accept : α → Except SyntaxError β)

/-- With `rest` behind them, the characters lead from `r` to a state of which `post` holds. -/
def Reads (r : Reader α π) (cs rest : List Char) (post : Reader α π → Prop) : Prop :=
  ∀ p, ∃ tokens r',
    Token.scanFrom p (cs ++ rest) = (Token.scanFrom (p.after cs) rest).map (tokens ++ ·) ∧
    (∀ more, r.run g limit accept (tokens ++ more) = r'.run g limit accept more) ∧ post r'

/-- An item is complete, which the next token shows if the machine does not yet know. -/
def Ready (frames : List (Frame α π)) (item : α) (r : Reader α π) : Prop :=
  ∀ t, t.lexeme ∈ [Lexeme.comma, .closeBrace, .closeParen, .endOfInput] →
    r.step g limit accept t = follow g accept frames item t

/-- A bracket may open. -/
def Opens (frames : List (Frame α π)) (owner : Option π) (r : Reader α π) : Prop :=
  ∀ t, t.lexeme.opens = true → r.step g limit accept t = (opened limit frames owner t).map .next

/-- A field name may follow. -/
def Names (frames : List (Frame α π)) (b : Bracket π) (done : List (FieldExpr α))
    (r : Reader α π) : Prop :=
  ∀ t, t.lexeme ≠ .closeBrace → r.step g limit accept t = (named frames b done t).map .next

/-- Within `room` brackets the characters are an item of which `post` holds. -/
def Spells (cs : List Char) (room : Nat) (post : α → Prop) : Prop :=
  ∀ frames rest, frames.length + room ≤ limit → Delimited rest →
    Reads g limit accept ⟨frames, .item⟩ cs rest fun r =>
      ∃ item, Ready g limit accept frames item r ∧ post item

def Encloses (cs : List Char) (room : Nat) (post : α → Prop) : Prop :=
  ∀ r frames owner rest, Opens g limit accept frames owner r → frames.length + room ≤ limit →
    Reads g limit accept r cs rest fun r' =>
      ∃ b item, b.owner = owner ∧ r' = closed g frames b item ∧ post item

/-- The text stands between names and items. -/
def Separates (separator : String) : Prop :=
  ∀ frames b done name nameSpan rest, Delimited (separator.toList ++ rest) ∧
    Reads g limit accept ⟨frames, .separator b done name nameSpan⟩ separator.toList rest
      fun r => r = ⟨.field b done name nameSpan :: frames, .item⟩

end

variable {g : Grammar α π} {limit : Nat} {accept : α → Except SyntaxError β}

namespace Reads

variable {r : Reader α π} {cs ds rest : List Char} {post : Reader α π → Prop}

theorem nil (h : post r) : Reads g limit accept r [] rest post := by
  intro p
  refine ⟨[], r, ?_, fun more => rfl, h⟩
  cases hs : Token.scanFrom p rest <;> simp [hs, Except.map]

theorem append {middle : Reader α π → Prop}
    (h : Reads g limit accept r cs (ds ++ rest) middle)
    (hmore : ∀ r', middle r' → Reads g limit accept r' ds rest post) :
    Reads g limit accept r (cs ++ ds) rest post := by
  intro p
  obtain ⟨tokens, r₁, hscan, hrun, hmiddle⟩ := h p
  obtain ⟨others, r₂, hscan', hrun', hpost⟩ := hmore r₁ hmiddle (p.after cs)
  refine ⟨tokens ++ others, r₂, ?_, fun more => ?_, hpost⟩
  · rw [List.append_assoc, hscan, hscan', Position.after_append]
    cases Token.scanFrom ((p.after cs).after ds) rest <;> simp [Except.map]
  · rw [List.append_assoc, hrun, hrun']

theorem imp {weaker : Reader α π → Prop} (h : Reads g limit accept r cs rest post)
    (hw : ∀ r', post r' → weaker r') : Reads g limit accept r cs rest weaker := by
  intro p
  obtain ⟨tokens, r', hscan, hrun, hpost⟩ := h p
  exact ⟨tokens, r', hscan, hrun, hw r' hpost⟩

theorem blank {c : Char} (hc : Text.isBlank c = true) (h : Reads g limit accept r cs rest post) :
    Reads g limit accept r (c :: cs) rest post := by
  intro p
  obtain ⟨tokens, r', hscan, hrun, hpost⟩ := h (p.next c)
  refine ⟨tokens, r', ?_, hrun, hpost⟩
  rw [List.cons_append, Token.scanFrom_blank p hc, hscan, Position.after_cons]

theorem lexeme {l : Lexeme} (hcs : ∃ c tail, cs = c :: tail ∧ Text.isBlank c = false)
    (htake : Lexeme.take (cs ++ (ds ++ rest)) = .ok (l, ds ++ rest))
    (hstep : ∀ span, ∃ r', r.step g limit accept ⟨l, span⟩ = .ok (.next r') ∧
      Reads g limit accept r' ds rest post) :
    Reads g limit accept r (cs ++ ds) rest post := by
  intro p
  obtain ⟨c, tail, rfl, hc⟩ := hcs
  obtain ⟨r₁, hr₁, hmore⟩ := hstep (.covering p (c :: tail))
  obtain ⟨tokens, r₂, hscan, hrun, hpost⟩ := hmore (p.after (c :: tail))
  refine ⟨⟨l, .covering p (c :: tail)⟩ :: tokens, r₂, ?_, fun more => ?_, hpost⟩
  · rw [List.append_assoc, Token.scanFrom_take p hc htake, hscan, Position.after_append]
    cases Token.scanFrom ((p.after (c :: tail)).after ds) rest <;> simp [Except.map]
  · rw [List.cons_append, run, hr₁]
    exact hrun more

theorem punctuation {c : Char} {l : Lexeme} (h : Lexeme.punctuation? c = some l)
    (hstep : ∀ span, ∃ r', r.step g limit accept ⟨l, span⟩ = .ok (.next r') ∧
      Reads g limit accept r' ds rest post) :
    Reads g limit accept r (c :: ds) rest post := by
  obtain ⟨hc, htake⟩ := Lexeme.take_punctuation h (ds ++ rest)
  have hcs : ∃ d tail, [c] = d :: tail ∧ Text.isBlank d = false := ⟨c, [], rfl, hc⟩
  exact lexeme hcs htake hstep

theorem single {l : Lexeme} (hcs : ∃ c tail, cs = c :: tail ∧ Text.isBlank c = false)
    (htake : Lexeme.take (cs ++ rest) = .ok (l, rest))
    (hstep : ∀ span, ∃ r', r.step g limit accept ⟨l, span⟩ = .ok (.next r') ∧ post r') :
    Reads g limit accept r cs rest post := by
  have h : Reads g limit accept r (cs ++ []) rest post := by
    refine lexeme hcs (by simpa using htake) fun span => ?_
    obtain ⟨r', hr, hpost⟩ := hstep span
    exact ⟨r', hr, nil hpost⟩
  rwa [List.append_nil] at h

theorem word {s : String} (hs : Text.IsIdentifier s) (hrest : Delimited rest)
    (hstep : ∀ span, ∃ r', r.step g limit accept ⟨.identifier s, span⟩ = .ok (.next r') ∧
      post r') :
    Reads g limit accept r s.toList rest post := by
  obtain ⟨c, cs, he, hc, -⟩ := Text.identifier?_eq_some hs
  exact single ⟨c, cs, he, Text.isBlank_of_isInitial hc⟩ (Lexeme.take_identifier hs hrest) hstep

end Reads

omit [Alphabet] in
theorem ready_whole (frames : List (Frame α π)) (item : α) :
    Ready g limit accept frames item ⟨frames, .whole item⟩ := fun _ _ => rfl

omit [Alphabet] in
theorem opens_item (frames : List (Frame α π)) :
    Opens g limit accept frames none ⟨frames, .item⟩ := by
  intro t ht
  simp [step, ht]

omit [Alphabet] in
theorem names_firstName (frames : List (Frame α π)) (b : Bracket π) :
    Names g limit accept frames b [] ⟨frames, .firstName b⟩ := by
  intro t ht
  simp [step]

omit [Alphabet] in
theorem names_nextName (frames : List (Frame α π)) (b : Bracket π) (done : List (FieldExpr α)) :
    Names g limit accept frames b done ⟨frames, .nextName b done⟩ := fun _ _ => rfl

theorem Encloses.spells {cs : List Char} {room : Nat} {post : α → Prop}
    (h : Encloses g limit accept cs room post) : Spells g limit accept cs room post := by
  intro frames rest hroom _
  refine (h _ frames none rest (opens_item frames) hroom).imp ?_
  rintro r' ⟨b, item, hb, rfl, hpost⟩
  exact ⟨item, by simpa [closed, hb] using ready_whole frames item, hpost⟩

theorem Encloses.imp {cs : List Char} {room : Nat} {post weaker : α → Prop}
    (h : Encloses g limit accept cs room post) (hw : ∀ item, post item → weaker item) :
    Encloses g limit accept cs room weaker := by
  intro r frames owner rest hr hroom
  refine (h r frames owner rest hr hroom).imp ?_
  rintro r' ⟨b, item, hb, he, hpost⟩
  exact ⟨b, item, hb, he, hw item hpost⟩

theorem Spells.mono {cs : List Char} {room more : Nat} {post : α → Prop}
    (h : Spells g limit accept cs room post) (hle : room ≤ more) :
    Spells g limit accept cs more post :=
  fun frames rest hroom hrest => h frames rest (by omega) hrest

theorem delimited_of_punctuation {c : Char} {l : Lexeme} (h : Lexeme.punctuation? c = some l)
    (rest : List Char) : Delimited (c :: rest) := by
  apply Text.delimited_cons
  unfold Lexeme.punctuation? at h
  split at h
  case h_8 => simp at h
  all_goals exact ⟨Text.isSubsequent_of_ascii (by decide), by decide⟩

section Lists

variable {text : γ → String} {post : γ → α → Prop} {room : Nat} {frames : List (Frame α π)}
  {b : Bracket π}

theorem Spells.reads_elements {x : γ} {xs : List γ}
    (h : ∀ y ∈ x :: xs, Spells g limit accept (text y).toList room (post y))
    (hroom : frames.length + (room + 1) ≤ limit) (done : List α) (rest : List Char) :
    Reads g limit accept ⟨.element b done :: frames, .item⟩
      ((commas ((x :: xs).map text)).toList ++ [')']) rest fun r =>
        ∃ items t, r = closeParen g frames b (done ++ items) t ∧
          List.Forall₂ post (x :: xs) items := by
  have hlength : (Frame.element b done :: frames).length + room ≤ limit := by
    simp only [List.length_cons]
    omega
  have hx := h x List.mem_cons_self
  -- on the items that are still to come, while `done` grows
  induction xs generalizing x done with
  | nil =>
    have hd : Delimited ([')'] ++ rest) := delimited_of_punctuation rfl rest
    refine (hx _ _ hlength hd).append ?_
    rintro r ⟨item, hr, hpost⟩
    refine .punctuation rfl fun span => ⟨_, hr _ (by simp), .nil ⟨[item], _, rfl, ?_⟩⟩
    exact .cons hpost .nil
  | cons y ys ih =>
    have htext : (commas ((x :: y :: ys).map text)).toList ++ [')'] =
        (text x).toList ++ (',' :: ' ' :: ((commas ((y :: ys).map text)).toList ++ [')'])) := by
      simp [commas, Text.joined]
    have hd : Delimited (',' :: ' ' :: ((commas ((y :: ys).map text)).toList ++ [')']) ++ rest) :=
      delimited_of_punctuation rfl _
    rw [htext]
    refine (hx _ _ hlength hd).append ?_
    rintro r ⟨item, hr, hpost⟩
    refine .punctuation rfl fun span => ⟨_, hr _ (by simp), .blank (by decide) ?_⟩
    refine (ih (fun z hz => h z (List.mem_cons_of_mem x hz)) (done ++ [item]) hlength
      (h y (by simp))).imp ?_
    rintro r' ⟨items, t, rfl, hitems⟩
    exact ⟨item :: items, t, by simp, .cons hpost hitems⟩

theorem Encloses.tuple {xs : List γ} (hxs : 1 < xs.length)
    (h : ∀ y ∈ xs, Spells g limit accept (text y).toList room (post y)) :
    Encloses g limit accept ('(' :: ((commas (xs.map text)).toList ++ [')'])) (room + 1)
      fun item => ∃ items span, item = g.record ⟨FieldExpr.positions g.span 1 items, span⟩ ∧
        List.Forall₂ post xs items := by
  intro r frames owner rest hr hroom
  have hopen : frames.length < limit := by omega
  match xs, hxs with
  | x :: y :: ys, _ =>
    refine .punctuation rfl fun span => ⟨⟨.element ⟨span, owner⟩ [] :: frames, .item⟩, ?_, ?_⟩
    · rw [hr _ rfl]
      simp [opened, hopen, Except.map]
    · refine (Spells.reads_elements h hroom [] rest).imp ?_
      rintro r' ⟨items, t, rfl, hitems⟩
      match items, hitems with
      | a :: c :: more, hitems => exact ⟨_, _, rfl, rfl, a :: c :: more, _, rfl, hitems⟩

theorem Spells.parenthesized {cs : String} {post : α → Prop}
    (h : Spells g limit accept cs.toList room post) :
    Encloses g limit accept ('(' :: (cs.toList ++ [')'])) (room + 1) post := by
  intro r frames owner rest hr hroom
  have hopen : frames.length < limit := by omega
  refine .punctuation rfl fun span => ⟨⟨.element ⟨span, owner⟩ [] :: frames, .item⟩, ?_, ?_⟩
  · rw [hr _ rfl]
    simp [opened, hopen, Except.map]
  · have hone : ∀ s ∈ [cs], Spells g limit accept (id s).toList room post := by simpa using h
    refine (Spells.reads_elements hone hroom [] rest).imp ?_
    rintro r' ⟨items, t, rfl, hitems⟩
    match items, hitems with
    | [item], .cons hitem _ => exact ⟨_, item, rfl, rfl, hitem⟩

variable {name : γ → FieldName} {separator : String}

theorem named_of_legible {n : FieldName} (hn : n.Legible) (frames : List (Frame α π))
    (b : Bracket π) (done : List (FieldExpr α)) (span : Span) :
    named frames b done ⟨n.lexeme, span⟩ = .ok ⟨frames, .separator b done n span⟩ := by
  cases n with
  | label s => rfl
  | position n => simp only [named, FieldName.lexeme, FieldName.ofDigits_toString hn.1 hn.2]

theorem Names.reads_name (hsep : Separates g limit accept separator) {n : FieldName}
    (hn : n.Legible) {done : List (FieldExpr α)} {r : Reader α π}
    (hr : Names g limit accept frames b done r) (rest : List Char) :
    Reads g limit accept r (n.text.toList ++ separator.toList) rest fun r' =>
      ∃ span, r' = ⟨.field b done n span :: frames, .item⟩ := by
  have hd : Delimited (separator.toList ++ rest) := (hsep frames b done n default rest).1
  refine .lexeme hn.text_eq_cons (hn.take_text hd) fun span => ?_
  refine ⟨⟨frames, .separator b done n span⟩, ?_, ?_⟩
  · have hne : n.lexeme ≠ .closeBrace := by cases n <;> exact nofun
    rw [hr _ hne, named_of_legible hn]
    rfl
  · refine (hsep frames b done n span rest).2.imp ?_
    rintro r' rfl
    exact ⟨span, rfl⟩

theorem Names.reads_field (hsep : Separates g limit accept separator) {n : FieldName}
    (hn : n.Legible) {cs : List Char} {post : α → Prop} (h : Spells g limit accept cs room post)
    (hroom : frames.length + (room + 1) ≤ limit) {done : List (FieldExpr α)} {r : Reader α π}
    (hr : Names g limit accept frames b done r) {rest : List Char} (hrest : Delimited rest) :
    Reads g limit accept r (n.text.toList ++ (separator.toList ++ cs)) rest fun r' =>
      ∃ span item, Ready g limit accept (.field b done n span :: frames) item r' ∧ post item := by
  rw [← List.append_assoc]
  refine (hr.reads_name hsep hn (cs ++ rest)).append ?_
  rintro r' ⟨span, rfl⟩
  have hlength : (Frame.field b done n span :: frames).length + room ≤ limit := by
    simp only [List.length_cons]
    omega
  refine (h _ rest hlength hrest).imp ?_
  rintro r' ⟨item, hready, hpost⟩
  exact ⟨span, item, hready, hpost⟩

theorem Names.reads_fields (hsep : Separates g limit accept separator) {x : γ} {xs : List γ}
    (hnames : ∀ y ∈ x :: xs, (name y).Legible)
    (h : ∀ y ∈ x :: xs, Spells g limit accept (text y).toList room (post y))
    (hroom : frames.length + (room + 1) ≤ limit) {done : List (FieldExpr α)}
    (hcoherent : FieldName.Coherent (done.map FieldExpr.name ++ (x :: xs).map name))
    {r : Reader α π} (hr : Names g limit accept frames b done r) (rest : List Char) :
    Reads g limit accept r ((commas ((x :: xs).map fun y =>
        (name y).text ++ separator ++ text y)).toList ++ ['}']) rest fun r' =>
      ∃ fields span, r' = closed g frames b (g.record ⟨done ++ fields, span⟩) ∧
        List.Forall₂ (fun y f => f.name = name y ∧ post y f.item) (x :: xs) fields := by
  have hn := hnames x List.mem_cons_self
  have hx := h x List.mem_cons_self
  induction xs generalizing x done r with
  | nil =>
    have hd : Delimited ('}' :: ([] ++ rest)) := delimited_of_punctuation rfl _
    have htext : (commas ([x].map fun y => (name y).text ++ separator ++ text y)).toList ++ ['}'] =
        ((name x).text.toList ++ (separator.toList ++ (text x).toList)) ++ '}' :: [] := by
      simp [commas, Text.joined]
    rw [htext]
    refine (hr.reads_field hsep hn hx hroom hd).append ?_
    rintro r' ⟨span, item, hready, hpost⟩
    have hcheck : ∀ s, FieldExpr.checkNames (done ++ [⟨name x, span, item⟩]) s = .ok () :=
      FieldExpr.checkNames_of_coherent (by simpa using hcoherent)
    refine .punctuation rfl fun closing => ?_
    let fields := done ++ [⟨name x, span, item⟩]
    refine ⟨closed g frames b (g.record ⟨fields, b.opening.through closing⟩), ?_, .nil ?_⟩
    · rw [hready _ (by simp)]
      simp only [follow, closeBrace, hcheck]
      rfl
    · exact ⟨[⟨name x, span, item⟩], _, rfl, .cons ⟨rfl, hpost⟩ .nil⟩
  | cons y ys ih =>
    let more := (commas ((y :: ys).map fun z => (name z).text ++ separator ++ text z)).toList
    have htext : (commas ((x :: y :: ys).map fun z =>
        (name z).text ++ separator ++ text z)).toList ++ ['}'] =
        ((name x).text.toList ++ (separator.toList ++ (text x).toList)) ++
          ',' :: ' ' :: (more ++ ['}']) := by
      simp [commas, Text.joined, more]
    have hd : Delimited (',' :: ' ' :: (more ++ ['}']) ++ rest) := delimited_of_punctuation rfl _
    rw [htext]
    refine (hr.reads_field hsep hn hx hroom hd).append ?_
    rintro r' ⟨span, item, hready, hpost⟩
    refine .punctuation rfl fun _ => ⟨_, hready _ (by simp), .blank (by decide) ?_⟩
    refine (ih (fun z hz => hnames z (List.mem_cons_of_mem x hz))
      (fun z hz => h z (List.mem_cons_of_mem x hz)) (by simpa using hcoherent)
      (names_nextName frames b (done ++ [⟨name x, span, item⟩])) (hnames y (by simp))
      (h y (by simp))).imp ?_
    rintro r'' ⟨fields, s, rfl, hfields⟩
    exact ⟨⟨name x, span, item⟩ :: fields, s, by simp, .cons ⟨rfl, hpost⟩ hfields⟩

theorem Encloses.record (hsep : Separates g limit accept separator) {xs : List γ}
    (hnames : ∀ y ∈ xs, (name y).Legible) (hcoherent : FieldName.Coherent (xs.map name))
    (h : ∀ y ∈ xs, Spells g limit accept (text y).toList room (post y)) :
    Encloses g limit accept ('{' :: ((commas (xs.map fun y =>
        (name y).text ++ separator ++ text y)).toList ++ ['}'])) (room + 1)
      fun item => ∃ fields span, item = g.record ⟨fields, span⟩ ∧
        List.Forall₂ (fun y f => f.name = name y ∧ post y f.item) xs fields := by
  intro r frames owner rest hr hroom
  have hopen : frames.length < limit := by omega
  refine .punctuation rfl fun span => ⟨⟨frames, .firstName ⟨span, owner⟩⟩, ?_, ?_⟩
  · rw [hr _ rfl]
    simp [opened, hopen, Except.map]
  · cases xs with
    | nil =>
      refine .punctuation rfl fun closing => ⟨_, rfl, .nil ⟨_, _, rfl, rfl, [], _, rfl, .nil⟩⟩
    | cons x xs =>
      let b : Bracket π := ⟨span, owner⟩
      have hstart : Names g limit accept frames b [] ⟨frames, .firstName b⟩ :=
        names_firstName frames b
      refine (Names.reads_fields hsep hnames h hroom (by simpa using hcoherent) hstart
        rest).imp ?_
      rintro r' ⟨fields, span, rfl, hfields⟩
      exact ⟨_, _, rfl, rfl, fields, span, rfl, hfields⟩

end Lists

/-- An item that is the whole text is what is read. -/
theorem Spells.read {text : String} {room : Nat} {post : α → Prop}
    (h : Spells g limit .ok text.toList room post) (hroom : room ≤ limit) :
    ∃ item, g.read limit .ok text = .ok item ∧ post item := by
  obtain ⟨tokens, r, hscan, hrun, item, hready, hpost⟩ :=
    h [] [] (by simpa using hroom) Text.delimited_nil .start
  refine ⟨item, ?_, hpost⟩
  rw [List.append_nil, Token.scanFrom_nil] at hscan
  rw [Grammar.read, Token.scan, hscan]
  simp only [Except.map, initial]
  rw [hrun, run, hready _ (by simp)]
  rfl

end RecordLens.Reader
