import RecordLens.Proofs.Literal.Derivation
import RecordLens.Proofs.Token.Tiling

/-! Where literals stand. All places that a reader reports are places of the text that it reads,
those in the tree it returns and that of the error it stops with. A name in braces stands where its
text stands, and the elements of a tuple have distinct names. -/

namespace RecordLens

namespace Lexeme

theorem eq_of_take_identifier [Alphabet] {cs rest : List Char} {s : String}
    (h : take cs = .ok (.identifier s, rest)) : s.toList ++ rest = cs := by
  unfold take at h
  split at h
  · next hi =>
    obtain ⟨hl, rfl⟩ := Prod.mk.inj (Except.ok.inj h)
    obtain rfl := identifier.inj hl
    rw [String.toList_ofList]
    exact Text.append_of_identifier? hi
  · split at h
    · next hn =>
      obtain rfl := Except.ok.inj h
      exact (number?_isNumber hn).elim
    · exact (mark_isMark h).elim

theorem eq_of_number?_integer {cs rest : List Char} {digits : String}
    (h : number? cs = some (.integer digits, rest)) :
    digits.toList ++ rest = cs ∧ IsDigits digits.toList := by
  unfold number? at h
  simp only at h
  split at h
  · cases h
  · next hne =>
    split at h
    · split at h
      · obtain ⟨hl, rfl⟩ := Prod.mk.inj (Option.some.inj h)
        obtain rfl := integer.inj hl
        rw [String.toList_ofList]
        refine ⟨List.takeWhile_append_dropWhile, by simpa using hne, ?_⟩
        exact List.all_eq_true.1 List.all_takeWhile
      · cases h
    · split at h <;> cases h

theorem eq_of_take_integer [Alphabet] {cs rest : List Char} {digits : String}
    (h : take cs = .ok (.integer digits, rest)) :
    digits.toList ++ rest = cs ∧ IsDigits digits.toList := by
  unfold take at h
  split at h
  · cases h
  · split at h
    · next hn =>
      obtain rfl := Except.ok.inj h
      exact eq_of_number?_integer hn
    · exact (mark_isMark h).elim

end Lexeme

theorem FieldName.WrittenAs.marks [Alphabet] {source : List Char} {t : Token} {n : FieldName}
    (h : n.WrittenAs t.lexeme) (ht : t.Stands source) : t.span.Marks source n.text.toList := by
  obtain ⟨word, hmarks, hword⟩ := ht
  generalize t.lexeme = l at h hword
  cases h with
  | label s =>
    have htake : Lexeme.take word = .ok (.identifier s, []) := hword.resolve_left nofun
    have hs := Lexeme.eq_of_take_identifier htake
    rw [List.append_nil] at hs
    exact hs ▸ hmarks
  | @position digits hzero hbound =>
    have htake : Lexeme.take word = .ok (.integer digits, []) := hword.resolve_left nofun
    obtain ⟨hall, hdigits⟩ := Lexeme.eq_of_take_integer htake
    rw [List.append_nil] at hall
    rw [(WrittenAs.position hzero hbound).text_eq_digits hdigits, hall]
    exact hmarks

namespace FieldExpr

variable {α : Type}

/-- The name stands where its text stands, and the item is placed. -/
def Spelled (source : List Char) (placed : α → Prop) (f : FieldExpr α) : Prop :=
  f.nameSpan.Marks source f.name.text.toList ∧ placed f.item

/-- Every name stands where its text stands. In tuples the elements stand for their names, which are
distinct. -/
def NamesPlaced (source : List Char) (fields : List (FieldExpr α)) : Prop :=
  (∀ f ∈ fields, f.nameSpan.Marks source f.name.text.toList) ∨
    (fields.map name).Nodup ∧ ∀ f ∈ fields, f.nameSpan.In source

end FieldExpr

/-- All spans in the type are stretches of the source. -/
inductive TypeExpr.Placed (source : List Char) : TypeExpr → Prop
  | named {name : String} {args : List TypeExpr} {span : Span} (hspan : span.In source)
      (h : ∀ a ∈ args, Placed source a) : Placed source (.named name args span)
  | record {fields : List (FieldExpr TypeExpr)} {span : Span} (hspan : span.In source)
      (hnames : FieldExpr.NamesPlaced source fields) (h : ∀ f ∈ fields, Placed source f.item) :
      Placed source (.record ⟨fields, span⟩)

theorem TypeExpr.Placed.span_in {source : List Char} {e : TypeExpr} (h : e.Placed source) :
    e.span.In source := by
  cases h with
  | named hspan _ => exact hspan
  | record hspan _ _ => exact hspan

inductive Expr.Placed (source : List Char) : Expr → Prop
  | scalar {value : Scalar} {span : Span} (hspan : span.In source) :
      Placed source (.scalar value span)
  | record {fields : List (FieldExpr Expr)} {span : Span} (hspan : span.In source)
      (hnames : FieldExpr.NamesPlaced source fields) (h : ∀ f ∈ fields, Placed source f.item) :
      Placed source (.record ⟨fields, span⟩)

theorem Expr.Placed.span_in {source : List Char} {e : Expr} (h : e.Placed source) :
    e.span.In source := by
  cases h with
  | scalar hspan => exact hspan
  | record hspan _ _ => exact hspan

theorem FieldExpr.located_checkNames {α : Type} {source : List Char} {placed : α → Prop}
    {fields : List (FieldExpr α)} {span : Span} (h : ∀ f ∈ fields, f.Spelled source placed)
    (hspan : span.In source) : Located source (fun _ => True) (checkNames fields span) := by
  unfold checkNames
  split
  · exact .ok trivial
  · dsimp only
    split
    · next f hfind =>
      have hname : f.nameSpan.In source := ⟨_, (h f (List.mem_of_find?_eq_some hfind)).1⟩
      refine .error ?_
      unfold misplaced
      split <;> exact hname
    · split
      · split
        · exact .error hspan
        · exact .ok trivial
      · exact .ok trivial

section

variable [Alphabet]

namespace Reader

variable {α β π : Type}

section

variable (source : List Char) (placed : α → Prop) (begun : π → Prop)

def Bracket.Placed (b : Bracket π) : Prop :=
  b.opening.In source ∧ ∀ p, b.owner = some p → begun p

def FramePlaced : Frame α π → Prop
  | .field b done name nameSpan =>
    Bracket.Placed source begun b ∧ (∀ f ∈ done, f.Spelled source placed) ∧
      nameSpan.Marks source name.text.toList
  | .element b done => Bracket.Placed source begun b ∧ ∀ x ∈ done, placed x

def ControlPlaced : Control α π → Prop
  | .item => True
  | .part p => begun p
  | .whole x => placed x
  | .firstName b => Bracket.Placed source begun b
  | .nextName b done => Bracket.Placed source begun b ∧ ∀ f ∈ done, f.Spelled source placed
  | .separator b done name nameSpan =>
    Bracket.Placed source begun b ∧ (∀ f ∈ done, f.Spelled source placed) ∧
      nameSpan.Marks source name.text.toList

def Placed (r : Reader α π) : Prop :=
  (∀ f ∈ r.frames, FramePlaced source placed begun f) ∧ ControlPlaced source placed begun r.control

def OutcomePlaced (ok : β → Prop) : Outcome α β π → Prop
  | .next r => Placed source placed begun r
  | .done result => ok result

end

/-- The steps of a grammar place the items that are read from tokens of the source. -/
structure Places (source : List Char) (g : Grammar α π) (placed : α → Prop) (begun : π → Prop) :
    Prop where
  start {t} (ht : Token.Stands source t) : Located source (Sum.elim placed begun) (g.start t)
  extend {p t} (hp : begun p) (ht : Token.Stands source t) :
    Located source (fun
      | .whole x => placed x
      | .part q => begun q
      | .bracket => True
      | .ended x => placed x) (g.extend p t)
  join {p x} (hp : begun p) (hx : placed x) : begun (g.join p x)
  record {fields span} (hspan : Span.In span source)
    (hnames : FieldExpr.NamesPlaced source fields) (h : ∀ f ∈ fields, placed f.item) :
    placed (g.record ⟨fields, span⟩)
  span {x} (hx : placed x) : (g.span x).In source

variable {source : List Char} {g : Grammar α π} {limit : Nat} {accept : α → Except SyntaxError β}
  {placed : α → Prop} {begun : π → Prop} {frames : List (Frame α π)} {t : Token}

theorem located_opened {owner : Option π} (ht : t.Stands source)
    (hf : ∀ f ∈ frames, FramePlaced source placed begun f) (ho : ∀ p, owner = some p → begun p) :
    Located source (Placed source placed begun) (opened limit frames owner t) := by
  have hb : Bracket.Placed source begun ⟨t.span, owner⟩ := ⟨ht.span_in, ho⟩
  unfold opened
  split
  · split
    · exact .ok ⟨hf, hb⟩
    · exact .ok ⟨List.forall_mem_cons.2 ⟨⟨hb, nofun⟩, hf⟩, trivial⟩
  · exact .error ht.span_in

theorem located_named {b : Bracket π} {done : List (FieldExpr α)} (ht : t.Stands source)
    (hf : ∀ f ∈ frames, FramePlaced source placed begun f) (hb : Bracket.Placed source begun b)
    (hdone : ∀ f ∈ done, f.Spelled source placed) :
    Located source (Placed source placed begun) (named frames b done t) := by
  cases h : named frames b done t with
  | ok r =>
    obtain ⟨name, hname, rfl⟩ := named_eq_ok_iff.1 h
    exact .ok ⟨hf, hb, hdone, hname.marks ht⟩
  | error e =>
    refine .error ?_
    unfold named at h
    split at h
    · cases h
    · split at h
      · next he =>
        obtain rfl := Except.error.inj h
        exact FieldName.span_eq_of_ofDigits he ▸ ht.span_in
      · cases h
    · exact Except.error.inj h ▸ ht.span_in

section

variable (hp : Places source g placed begun)

include hp

theorem placed_closed {b : Bracket π} {x : α}
    (hf : ∀ f ∈ frames, FramePlaced source placed begun f) (hb : Bracket.Placed source begun b)
    (hx : placed x) : Placed source placed begun (closed g frames b x) := by
  unfold closed
  split
  · next p hown => exact ⟨hf, hp.join (hb.2 p hown) hx⟩
  · exact ⟨hf, hx⟩

theorem located_closeBrace {b : Bracket π} {fields : List (FieldExpr α)} (ht : t.Stands source)
    (hf : ∀ f ∈ frames, FramePlaced source placed begun f) (hb : Bracket.Placed source begun b)
    (hfields : ∀ f ∈ fields, f.Spelled source placed) :
    Located source (Placed source placed begun) (closeBrace g frames b fields t) := by
  have hspan : (b.opening.through t.span).In source := Span.through_in hb.1 ht.span_in
  have hnames := FieldExpr.located_checkNames hfields hspan
  unfold closeBrace
  dsimp only
  generalize FieldExpr.checkNames fields (b.opening.through t.span) = checked at hnames ⊢
  cases hnames with
  | error h => exact .error h
  | ok _ =>
    have hrecord := hp.record hspan (.inl fun f hf => (hfields f hf).1) fun f hf => (hfields f hf).2
    exact .ok (placed_closed hp hf hb hrecord)

theorem placed_closeParen {b : Bracket π} {xs : List α} (ht : t.Stands source)
    (hf : ∀ f ∈ frames, FramePlaced source placed begun f) (hb : Bracket.Placed source begun b)
    (hxs : ∀ x ∈ xs, placed x) : Placed source placed begun (closeParen g frames b xs t) := by
  have hspan : (b.opening.through t.span).In source := Span.through_in hb.1 ht.span_in
  unfold closeParen
  split
  · next x => exact placed_closed hp hf hb (hxs x List.mem_cons_self)
  · refine placed_closed hp hf hb (hp.record hspan (.inr ⟨?_, fun f hf => ?_⟩) fun f hf => ?_)
    · rw [FieldExpr.positions_names]
      exact (FieldName.pairwise_positions 1 xs.length).imp FieldName.ne_of_lt
    · rw [FieldExpr.nameSpan_of_mem_positions hf]
      exact hp.span (hxs _ (FieldExpr.item_mem_of_mem_positions hf))
    · exact hxs _ (FieldExpr.item_mem_of_mem_positions hf)

theorem located_begun (ht : t.Stands source)
    (hf : ∀ f ∈ frames, FramePlaced source placed begun f) :
    Located source (Placed source placed begun) (Reader.begun g frames t) := by
  have hstart := hp.start ht
  unfold Reader.begun
  generalize g.start t = result at hstart ⊢
  cases hstart with
  | error h => exact .error h
  | @ok found h =>
    cases found with
    | inl x => exact .ok ⟨hf, h⟩
    | inr p => exact .ok ⟨hf, h⟩

variable {ok : β → Prop} (haccept : ∀ x, placed x → Located source ok (accept x))

include haccept

theorem located_follow {x : α} (ht : t.Stands source)
    (hf : ∀ f ∈ frames, FramePlaced source placed begun f) (hx : placed x) :
    Located source (OutcomePlaced source placed begun ok) (follow g accept frames x t) := by
  cases frames with
  | nil =>
    have hresult := haccept x hx
    simp only [follow]
    generalize accept x = result at hresult ⊢
    cases hresult with
    | error h => exact .error h
    | ok h =>
      dsimp only
      split
      · exact .ok h
      · exact .error ht.span_in
  | cons frame frames =>
    obtain ⟨hframe, hrest⟩ := List.forall_mem_cons.1 hf
    cases frame with
    | field b done name nameSpan =>
      obtain ⟨hb, hdone, hname⟩ := hframe
      have hfields : ∀ f ∈ done ++ [⟨name, nameSpan, x⟩], f.Spelled source placed :=
        List.forall_mem_append.2 ⟨hdone, List.forall_mem_singleton.2 ⟨hname, hx⟩⟩
      simp only [follow]
      split
      · exact .ok ⟨hrest, hb, hfields⟩
      · exact (located_closeBrace hp ht hrest hb hfields).map fun _ h => h
      · exact .error ht.span_in
    | element b done =>
      obtain ⟨hb, hdone⟩ := hframe
      have helements : ∀ y ∈ done ++ [x], placed y :=
        List.forall_mem_append.2 ⟨hdone, List.forall_mem_singleton.2 hx⟩
      simp only [follow]
      split
      · exact .ok ⟨List.forall_mem_cons.2 ⟨⟨hb, helements⟩, hrest⟩, trivial⟩
      · exact .ok (placed_closeParen hp ht hrest hb helements)
      · exact .error ht.span_in

/-- One token leaves all places in the source. -/
theorem located_step {r : Reader α π} (ht : t.Stands source)
    (hr : Placed source placed begun r) :
    Located source (OutcomePlaced source placed begun ok) (r.step g limit accept t) := by
  obtain ⟨frames, control⟩ := r
  obtain ⟨hf, hc⟩ := hr
  cases control with
  | item =>
    simp only [step]
    split
    · exact (located_opened ht hf (by simp)).map fun _ h => h
    · exact (located_begun hp ht hf).map fun _ h => h
  | part p =>
    have hextend := hp.extend hc ht
    simp only [step]
    generalize g.extend p t = result at hextend ⊢
    cases hextend with
    | error h => exact .error h
    | @ok extension h =>
      cases extension with
      | whole x => exact .ok ⟨hf, h⟩
      | part q => exact .ok ⟨hf, h⟩
      | bracket =>
        exact (located_opened ht hf fun q hq => Option.some.inj hq ▸ hc).map fun _ h => h
      | ended x => exact located_follow hp haccept ht hf h
  | whole x => exact located_follow hp haccept ht hf hc
  | firstName b =>
    simp only [step]
    split
    · exact (located_closeBrace hp ht hf hc (List.forall_mem_nil _)).map fun _ h => h
    · exact (located_named ht hf hc (List.forall_mem_nil _)).map fun _ h => h
  | nextName b done => exact (located_named ht hf hc.1 hc.2).map fun _ h => h
  | separator b done name nameSpan =>
    simp only [step]
    split
    · exact .ok ⟨List.forall_mem_cons.2 ⟨hc, hf⟩, trivial⟩
    · exact .error ht.span_in

theorem located_run {r : Reader α π} {tokens : List Token} (ht : ∀ t ∈ tokens, t.Stands source)
    (hr : Placed source placed begun r) : Located source ok (r.run g limit accept tokens) := by
  induction tokens generalizing r with
  | nil => exact .error (Span.in_covering [] [] source)
  | cons t rest ih =>
    obtain ⟨ht, hrest⟩ := List.forall_mem_cons.1 ht
    have hstep : Located source (OutcomePlaced source placed begun ok) (r.step g limit accept t) :=
      located_step hp haccept ht hr
    rw [run]
    generalize r.step g limit accept t = result at hstep ⊢
    cases hstep with
    | error h => exact .error h
    | @ok outcome h =>
      cases outcome with
      | next r' => exact ih hrest h
      | done result => exact .ok h

end

theorem located_read {text : String} (hp : Places text.toList g placed begun) {ok : β → Prop}
    (haccept : ∀ x, placed x → Located text.toList ok (accept x)) :
    Located text.toList ok (g.read limit accept text) := by
  unfold Grammar.read
  cases hscan : Token.scan text with
  | error e => exact .error (Token.span_in_of_scan_error hscan)
  | ok tokens => exact located_run hp haccept (Token.stands_of_scan hscan) ⟨nofun, trivial⟩

end Reader

end

namespace Application

def Placed (source : List Char) (a : Application) : Prop :=
  a.span.In source ∧ ∀ arg ∈ a.args, arg.Placed source

theorem Placed.push {source : List Char} {a : Application} {arg : TypeExpr} (h : a.Placed source)
    (harg : arg.Placed source) : (a.push arg).Placed source :=
  ⟨h.1, List.forall_mem_append.2 ⟨h.2, List.forall_mem_singleton.2 harg⟩⟩

theorem Placed.typeExpr {source : List Char} {a : Application} (h : a.Placed source) :
    a.typeExpr.Placed source := by
  refine .named ?_ h.2
  cases hlast : a.args.getLast? with
  | none => exact h.1
  | some last => exact Span.through_in h.1 (h.2 last (List.mem_of_getLast? hlast)).span_in

end Application

namespace TypeExpr

variable [Alphabet]

theorem places (source : List Char) :
    Reader.Places source typeGrammar (Placed source) (Application.Placed source) where
  start {t} ht := by
    unfold typeGrammar
    dsimp only
    split
    · exact .ok ⟨ht.span_in, List.forall_mem_nil _⟩
    · exact .error ht.span_in
  extend {a t} ha ht := by
    unfold typeGrammar
    dsimp only
    split
    · exact .ok (ha.push (.named ht.span_in (List.forall_mem_nil _)))
    · split
      · exact .ok trivial
      · exact .ok ha.typeExpr
  join := .push
  record := .record
  span := Placed.span_in

theorem located_read (limit : Nat) (text : String) :
    Located text.toList (Placed text.toList) (read limit text) :=
  Reader.located_read (places text.toList) fun _ => .ok

theorem located_readRecord (limit : Nat) (text : String) :
    Located text.toList (fun r => (record r).Placed text.toList) (readRecord limit text) := by
  refine Reader.located_read (places text.toList) fun e he => ?_
  cases e with
  | named => exact .error he.span_in
  | record => exact .ok he

end TypeExpr

namespace Expr

theorem located_ofDigits {source : List Char} (negative : Bool) (digits : String) {span : Span}
    (hspan : span.In source) : Located source (Placed source) (ofDigits negative digits span) := by
  unfold ofDigits
  simp only
  generalize (if negative = true then -(digitsValue digits.toList : Int)
    else digitsValue digits.toList) = k
  split
  · exact .ok (.scalar hspan)
  · exact .error hspan

variable [Alphabet]

theorem places (source : List Char) :
    Reader.Places source valueGrammar (Placed source) (Span.In · source) where
  start {t} ht := by
    have hspan := ht.span_in
    unfold valueGrammar
    dsimp only
    split
    · exact (located_ofDigits false _ hspan).map fun _ h => h
    all_goals first | exact .error hspan | exact .ok hspan | exact .ok (Placed.scalar hspan)
  extend {minus t} hminus ht := by
    have hspan := Span.through_in hminus ht.span_in
    unfold valueGrammar
    dsimp only
    split
    · exact (located_ofDigits true _ hspan).map fun _ h => h
    · exact .ok (.scalar hspan)
    · exact .error ht.span_in
  join hminus _ := hminus
  record := .record
  span := Placed.span_in

theorem located_read (limit : Nat) (text : String) :
    Located text.toList (Placed text.toList) (read limit text) :=
  Reader.located_read (places text.toList) fun _ => .ok

theorem located_readRecord (limit : Nat) (text : String) :
    Located text.toList (fun r => (record r).Placed text.toList) (readRecord limit text) := by
  refine Reader.located_read (places text.toList) fun e he => ?_
  cases e with
  | scalar => exact .error he.span_in
  | record => exact .ok he

end Expr

end RecordLens
