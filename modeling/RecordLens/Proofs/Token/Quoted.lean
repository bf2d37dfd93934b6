import RecordLens.Proofs.Token.Scan

/-! Quoted text reads back: what is escaped between two quotes is one lexeme that holds the
characters again. -/

namespace RecordLens.Lexeme

open Text (escape quoted)

theorem stringBody_plain {c : Char} (hquote : c ≠ '"') (hslash : c ≠ '\\') (rest : List Char) :
    stringBody (c :: rest) = (stringBody rest).map fun (cs, rest) => (c :: cs, rest) := by
  rw [stringBody]
  · exact fun h => hquote h
  · exact fun h _ => hslash h
  · exact fun _ _ h _ => hslash h

theorem stringBody_escape (c : Char) (rest : List Char) :
    stringBody (escape (fun _ => false) '"' c ++ rest) =
      (stringBody rest).map fun (cs, rest) => (c :: cs, rest) := by
  unfold escape
  split
  case h_6 hn ht hr h0 hslash =>
    by_cases hquote : c = '"'
    · rw [if_pos hquote, hquote]
      rfl
    · rw [if_neg hquote]
      exact stringBody_plain hquote hslash rest
  all_goals rfl

theorem stringBody_flatMap (cs rest : List Char) :
    stringBody (cs.flatMap (escape (fun _ => false) '"') ++ '"' :: rest) = .ok (cs, rest) := by
  induction cs with
  | nil => rfl
  | cons c cs ih =>
    rw [List.flatMap_cons, List.append_assoc, stringBody_escape, ih]
    rfl

theorem characterBody_plain {c : Char} (hquote : c ≠ '\'') (hslash : c ≠ '\\') (rest : List Char) :
    characterBody (c :: rest) = characterEnd c rest := by
  rw [characterBody]
  · exact fun h => hquote h
  · exact fun h _ => hslash h
  · exact fun _ _ h _ => hslash h

theorem characterBody_escape (c : Char) (rest : List Char) :
    characterBody (escape (fun _ => false) '\'' c ++ '\'' :: rest) = .ok (.character c, rest) := by
  unfold escape
  split
  case h_6 hn ht hr h0 hslash =>
    by_cases hquote : c = '\''
    · rw [if_pos hquote, hquote]
      rfl
    · rw [if_neg hquote]
      exact characterBody_plain hquote hslash ('\'' :: rest)
  all_goals rfl

theorem take_string [Alphabet] (s : String) (rest : List Char) :
    take (quoted (fun _ => false) '"' s.toList ++ rest) = .ok (.string s, rest) := by
  have hbody := stringBody_flatMap s.toList rest
  simp only [quoted, List.cons_append, List.append_assoc, List.nil_append]
  rw [take_eq_mark (Text.isInitial_of_ascii (by decide)) (by decide), mark, hbody]
  simp [Except.map]

theorem take_character [Alphabet] (c : Char) (rest : List Char) :
    take (quoted (fun _ => false) '\'' [c] ++ rest) = .ok (.character c, rest) := by
  have hbody := characterBody_escape c rest
  simp only [quoted, List.flatMap_cons, List.flatMap_nil, List.append_nil, List.cons_append,
    List.append_assoc, List.nil_append]
  rw [take_eq_mark (Text.isInitial_of_ascii (by decide)) (by decide), mark, hbody]

end RecordLens.Lexeme
