/-! Cutting a text by byte offsets and into lines. -/

namespace RecordLens.Text

/-- What is left after `n` bytes, if a character begins or the text ends there. -/
def dropBytes? : Nat → List Char → Option (List Char)
  | 0, cs => some cs
  | _ + 1, [] => none
  | n + 1, c :: cs => if c.utf8Size ≤ n + 1 then dropBytes? (n + 1 - c.utf8Size) cs else none

def takeBytes? : Nat → List Char → Option (List Char)
  | 0, _ => some []
  | _ + 1, [] => none
  | n + 1, c :: cs =>
    if c.utf8Size ≤ n + 1 then (takeBytes? (n + 1 - c.utf8Size) cs).map (c :: ·) else none

/-- The `length` bytes from `offset` on, if they are whole characters of the text. -/
def slice? (offset length : Nat) (cs : List Char) : Option (List Char) :=
  (dropBytes? offset cs).bind (takeBytes? length)

def byteLength : List Char → Nat
  | [] => 0
  | c :: cs => c.utf8Size + byteLength cs

@[simp] theorem byteLength_nil : byteLength [] = 0 := rfl

@[simp] theorem byteLength_cons (c : Char) (cs : List Char) :
    byteLength (c :: cs) = c.utf8Size + byteLength cs := rfl

theorem byteLength_append (cs ds : List Char) :
    byteLength (cs ++ ds) = byteLength cs + byteLength ds := by
  induction cs with
  | nil => exact (Nat.zero_add _).symm
  | cons c cs ih => rw [List.cons_append, byteLength_cons, ih, byteLength_cons, Nat.add_assoc]

/-- What `dropBytes?` and `takeBytes?` match on where a character begins. -/
theorem exists_byteLength_cons (c : Char) (cs : List Char) :
    ∃ n, byteLength (c :: cs) = n + 1 ∧ c.utf8Size ≤ n + 1 ∧
      n + 1 - c.utf8Size = byteLength cs := by
  have hc := Char.utf8Size_pos c
  exact ⟨c.utf8Size + byteLength cs - 1, by rw [byteLength_cons]; omega, by omega, by omega⟩

theorem dropBytes?_byteLength (cs ds : List Char) :
    dropBytes? (byteLength cs) (cs ++ ds) = some ds := by
  induction cs with
  | nil => simp [dropBytes?]
  | cons c cs ih =>
    obtain ⟨n, hn, hle, hs⟩ := exists_byteLength_cons c cs
    rw [hn, List.cons_append, dropBytes?, if_pos hle, hs, ih]

theorem takeBytes?_byteLength (cs ds : List Char) :
    takeBytes? (byteLength cs) (cs ++ ds) = some cs := by
  induction cs with
  | nil => simp [takeBytes?]
  | cons c cs ih =>
    obtain ⟨n, hn, hle, hs⟩ := exists_byteLength_cons c cs
    rw [hn, List.cons_append, takeBytes?, if_pos hle, hs, ih, Option.map_some]

/-- The lines, without the line feed that ends each of them and the carriage return right before
it. Nothing behind the last line feed is no line. -/
def lines : List Char → List (List Char)
  | [] => []
  | '\n' :: rest => [] :: lines rest
  | '\r' :: '\n' :: rest => [] :: lines rest
  | c :: rest =>
    match lines rest with
    | [] => [[c]]
    | line :: more => (c :: line) :: more

end RecordLens.Text
