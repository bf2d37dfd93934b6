import RecordLens.Proofs.Literal.Layout

/-! What is written is read. Tokens of the lexemes that derive an item lead the machine from where
an item is awaited to where it is complete, and those of a bracketed item past its bracket. What is
laid out on tokens is in particular read from them. -/

namespace RecordLens.Reader

variable {α β π : Type}

section

variable (g : Grammar α π) (limit : Nat) (accept : α → Except SyntaxError β) (unplaced : α → α)

/-- Tokens of the lexemes, whatever their places, lead to a state of which `post` holds. -/
def Consumes (r : Reader α π) (ls : List Lexeme) (post : Reader α π → Prop) : Prop :=
  ∀ tokens, tokens.map Token.lexeme = ls → ∃ r',
    (∀ more, r.run g limit accept (tokens ++ more) = r'.run g limit accept more) ∧ post r'

/-- Within `room` brackets the lexemes are read as the item, up to its places. -/
def Recognizes (room : Nat) (ls : List Lexeme) (x : α) : Prop :=
  ∀ frames, frames.length + room ≤ limit →
    Consumes g limit accept ⟨frames, .item⟩ ls fun r =>
      ∃ item, Ready g limit accept frames item r ∧ unplaced item = x

def RecognizesBracketed (room : Nat) (ls : List Lexeme) (x : α) : Prop :=
  ∀ r frames owner, Opens g limit accept frames owner r → frames.length + room ≤ limit →
    Consumes g limit accept r ls fun r' =>
      ∃ b item, b.owner = owner ∧ r' = closed g frames b item ∧ unplaced item = x

end

variable {g : Grammar α π} {limit : Nat} {accept : α → Except SyntaxError β} {unplaced : α → α}

/-- What is read is laid out in some way. -/
theorem recognizes_iff_lays {room : Nat} {ls : List Lexeme} {x : α} :
    Recognizes g limit accept unplaced room ls x ↔
      Lays g limit accept unplaced (fun _ _ => True) room ls x := by
  simp only [Recognizes, Consumes, Lays, Advances, and_true]

theorem recognizesBracketed_iff_lays {room : Nat} {ls : List Lexeme} {x : α} :
    RecognizesBracketed g limit accept unplaced room ls x ↔
      LaysBracketed g limit accept unplaced (fun _ _ => True) room ls x := by
  simp only [RecognizesBracketed, Consumes, LaysBracketed, Advances, and_true]

/-- Tokens of the lexemes, up to the end of input, are read as the item, which is laid out on
them. -/
theorem Lays.run {laid : List Token → α → Prop} {room : Nat} {ls : List Lexeme} {x : α}
    (h : Lays g limit .ok unplaced laid room ls x) (hroom : room ≤ limit) {tokens : List Token}
    {stop : Token} (htokens : tokens.map Token.lexeme = ls) (hstop : stop.lexeme = .endOfInput) :
    ∃ item, initial.run g limit .ok (tokens ++ [stop]) = .ok item ∧ unplaced item = x ∧
      laid tokens item := by
  obtain ⟨r, hrun, item, hready, hitem⟩ := h [] (by simpa using hroom) tokens htokens
  refine ⟨item, ?_, hitem⟩
  simp only [initial]
  rw [hrun, Reader.run, hready stop (by simp [hstop])]
  simp [follow, hstop]

theorem Recognizes.run {room : Nat} {ls : List Lexeme} {x : α}
    (h : Recognizes g limit .ok unplaced room ls x) (hroom : room ≤ limit) {tokens : List Token}
    (htokens : tokens.map Token.lexeme = ls ++ [.endOfInput]) :
    ∃ item, initial.run g limit .ok tokens = .ok item ∧ unplaced item = x := by
  obtain ⟨words, ends, rfl, hwords, hends⟩ := List.map_eq_append_iff.1 htokens
  obtain ⟨stop, rfl, hstop⟩ := List.map_eq_singleton_iff.1 hends
  obtain ⟨item, hrun, hitem, -⟩ := (recognizes_iff_lays.1 h).run hroom hwords hstop
  exact ⟨item, hrun, hitem⟩

theorem Recognizes.read [Alphabet] {room : Nat} {ls : List Lexeme} {x : α}
    (h : Recognizes g limit .ok unplaced room ls x) (hroom : room ≤ limit) {text : String}
    (htext : Token.Lexes text ls) : (g.read limit .ok text).map unplaced = .ok x := by
  obtain ⟨tokens, hscan, htokens⟩ := htext
  obtain ⟨item, hrun, rfl⟩ := h.run hroom htokens
  have hread : g.read limit .ok text = .ok item := by
    rw [Grammar.read, hscan]
    exact hrun
  rw [hread]
  rfl

theorem Recognizes.unique {m n : Nat} {ls : List Lexeme} {x y : α}
    (hx : Recognizes g limit .ok unplaced m ls x) (hm : m ≤ limit)
    (hy : Recognizes g limit .ok unplaced n ls y) (hn : n ≤ limit) : x = y := by
  let tokens : List Token := (ls ++ [Lexeme.endOfInput]).map fun l => ⟨l, default⟩
  have htokens : tokens.map Token.lexeme = ls ++ [.endOfInput] := by
    simp [tokens, Function.comp_def]
  obtain ⟨item, hitem, rfl⟩ := hx.run hm htokens
  obtain ⟨again, hagain, rfl⟩ := hy.run hn htokens
  rw [hitem] at hagain
  rw [Except.ok.inj hagain]

end RecordLens.Reader
