import RecordLens.Text.Slice
import RecordLens.Token.Scan

/-! When an input goes on in the next line: while brackets are open, or a string or character runs
into its end. -/

namespace RecordLens

/-- How many more brackets open than close. -/
def openBrackets : List Token → Int
  | [] => 0
  | t :: rest =>
    (if t.lexeme.opens then 1 else if t.lexeme.closes then -1 else 0) + openBrackets rest

/-- Cuts the characters behind `offset` bytes, if a character begins there. -/
def splitAtOffset? (offset : Nat) (cs : List Char) : Option (List Char × Char × List Char) :=
  match Text.takeBytes? offset cs, Text.dropBytes? offset cs with
  | some before, some (c :: after) => some (before, c, after)
  | _, _ => none

theorem dropBytes?_length {n : Nat} {cs ds : List Char} (h : Text.dropBytes? n cs = some ds) :
    ds.length ≤ cs.length := by
  fun_induction Text.dropBytes? n cs with
  | case1 => simp_all
  | case2 => simp at h
  | case3 n c cs _ ih => exact Nat.le_succ_of_le (ih h)
  | case4 => simp at h

theorem splitAtOffset?_length {offset : Nat} {cs before after : List Char} {c : Char}
    (h : splitAtOffset? offset cs = some (before, c, after)) : after.length < cs.length := by
  unfold splitAtOffset? at h
  split at h
  · next hd =>
    obtain ⟨-, -, rfl⟩ := by simpa using h
    exact dropBytes?_length hd
  · simp at h

/-- Whether the characters go on in the next line, with `depth` brackets open before them. A
character that begins no token is skipped, since commands have such characters outside literals. -/
def goesOn [Alphabet] (depth : Int) (cs : List Char) : Bool :=
  match Token.scanFrom .start cs with
  | .ok tokens => 0 < depth + openBrackets tokens
  | .error e =>
    if Text.byteLength cs ≤ e.span.offset then true
    else if e.expected = .token then
      match _h : splitAtOffset? e.span.offset cs with
      | none => false
      | some (before, _, after) =>
        match Token.scanFrom .start before with
        | .error _ => false
        | .ok tokens => goesOn (depth + openBrackets tokens) after
    else false
termination_by cs.length
decreasing_by exact splitAtOffset?_length (by assumption)

/-- Whether an input goes on in the next line. -/
def needsMore [Alphabet] (input : String) : Bool := goesOn 0 input.toList

end RecordLens
