/-! Places in a text. Lines and columns count characters from one, offsets and lengths count bytes
of the encoded text from zero. -/

namespace RecordLens

structure Position where
  line : Nat
  column : Nat
  offset : Nat
  deriving DecidableEq, Repr, Inhabited

namespace Position

def start : Position := ⟨1, 1, 0⟩

/-- The place behind one more character. Only a line feed begins a line. -/
def next (p : Position) (c : Char) : Position :=
  if c = '\n' then ⟨p.line + 1, 1, p.offset + c.utf8Size⟩
  else ⟨p.line, p.column + 1, p.offset + c.utf8Size⟩

def after (p : Position) (cs : List Char) : Position := cs.foldl next p

@[simp] theorem after_nil (p : Position) : p.after [] = p := rfl

@[simp] theorem after_cons (p : Position) (c : Char) (cs : List Char) :
    p.after (c :: cs) = (p.next c).after cs := rfl

theorem after_append (p : Position) (cs ds : List Char) :
    p.after (cs ++ ds) = (p.after cs).after ds := List.foldl_append

@[simp] theorem next_offset (p : Position) (c : Char) :
    (p.next c).offset = p.offset + c.utf8Size := by
  unfold next; split <;> rfl

end Position

/-- A stretch of text: the place where it begins and its length in bytes. -/
structure Span extends Position where
  length : Nat
  deriving DecidableEq, Repr, Inhabited

namespace Span

def covering (p : Position) (cs : List Char) : Span := ⟨p, (p.after cs).offset - p.offset⟩

/-- The stretch from the beginning of `a` to the end of `b`. -/
def through (a b : Span) : Span := ⟨a.toPosition, b.offset + b.length - a.offset⟩

def place (s : Span) : String := toString s.line ++ ":" ++ toString s.column

end Span

end RecordLens
