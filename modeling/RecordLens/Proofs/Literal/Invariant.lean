import RecordLens.Literal.Grammar
import RecordLens.Proofs.Literal.Names

/-! What holds of everything that is read. A property of items that may depend on how many brackets
are open around them, and that each step of a grammar keeps, holds of the whole item read: the
frames keep it for the items that wait in them. -/

namespace RecordLens.Reader

variable [Alphabet]

variable {α β π : Type}

/-- The steps of a grammar keep a property `holds` of items inside a number of brackets, `ongoing`
of items that have begun and `bracketed` of items in brackets, seen from outside of these. -/
structure Keeps (g : Grammar α π) (limit : Nat) (holds : Nat → α → Prop) (ongoing : Nat → π → Prop)
    (bracketed : Nat → α → Prop) : Prop where
  start_item {depth t x} (ht : Token.WellNamed t) (hdepth : depth ≤ limit)
    (h : g.start t = .ok (.inl x)) : holds depth x
  start_part {depth t p} (ht : Token.WellNamed t) (hdepth : depth ≤ limit)
    (h : g.start t = .ok (.inr p)) : ongoing depth p
  extend_whole {depth p t x} (ht : Token.WellNamed t) (hp : ongoing depth p)
    (h : g.extend p t = .ok (.whole x)) : holds depth x
  extend_part {depth p t q} (ht : Token.WellNamed t) (hp : ongoing depth p)
    (h : g.extend p t = .ok (.part q)) : ongoing depth q
  extend_ended {depth p t x} (hp : ongoing depth p) (h : g.extend p t = .ok (.ended x)) :
    holds depth x
  join {depth p x} (hp : ongoing depth p) (hx : bracketed depth x) : ongoing depth (g.join p x)
  unbracketed {depth x} (hx : bracketed depth x) : holds depth x
  parenthesized {depth x} (hx : holds (depth + 1) x) : bracketed depth x
  record {depth fields span} (hdepth : depth < limit)
    (hnames : FieldExpr.checkNames fields span = .ok ())
    (h : ∀ f ∈ fields, f.name.WellNamed ∧ holds (depth + 1) f.item) :
    bracketed depth (g.record ⟨fields, span⟩)

section

variable (limit : Nat) (holds : Nat → α → Prop) (ongoing : Nat → π → Prop)

def Bracket.Sound (depth : Nat) (b : Bracket π) : Prop :=
  depth < limit ∧ ∀ p, b.owner = some p → ongoing depth p

def SoundFields (depth : Nat) (fields : List (FieldExpr α)) : Prop :=
  ∀ f ∈ fields, f.name.WellNamed ∧ holds (depth + 1) f.item

def SoundFrames : List (Frame α π) → Prop
  | [] => True
  | .field b done name _ :: frames =>
    Bracket.Sound limit ongoing frames.length b ∧ SoundFields holds frames.length done ∧
      name.WellNamed ∧ SoundFrames frames
  | .element b done :: frames =>
    Bracket.Sound limit ongoing frames.length b ∧ (∀ x ∈ done, holds (frames.length + 1) x) ∧
      SoundFrames frames

def SoundControl (depth : Nat) : Control α π → Prop
  | .item => True
  | .part p => ongoing depth p
  | .whole x => holds depth x
  | .firstName b => Bracket.Sound limit ongoing depth b
  | .nextName b done => Bracket.Sound limit ongoing depth b ∧ SoundFields holds depth done
  | .separator b done name _ =>
    Bracket.Sound limit ongoing depth b ∧ SoundFields holds depth done ∧ name.WellNamed

def Sound (r : Reader α π) : Prop :=
  SoundFrames limit holds ongoing r.frames ∧
    SoundControl limit holds ongoing r.frames.length r.control

/-- What a token leads to: a state whose items have the property, or the result for such an item. -/
def SoundOutcome (accept : α → Except SyntaxError β) : Outcome α β π → Prop
  | .next r => Sound limit holds ongoing r
  | .done result => ∃ x, holds 0 x ∧ accept x = .ok result

end

variable {g : Grammar α π} {limit : Nat} {accept : α → Except SyntaxError β}
  {holds : Nat → α → Prop} {ongoing : Nat → π → Prop} {bracketed : Nat → α → Prop}

theorem sound_initial : Sound limit holds ongoing (initial : Reader α π) := ⟨trivial, trivial⟩

theorem soundFields_nil {depth : Nat} : SoundFields holds depth ([] : List (FieldExpr α)) :=
  fun _ hf => absurd hf List.not_mem_nil

theorem SoundFrames.length_le {frames : List (Frame α π)}
    (h : SoundFrames limit holds ongoing frames) : frames.length ≤ limit := by
  match frames, h with
  | [], _ => exact Nat.zero_le limit
  | .field _ _ _ _ :: _, h => exact h.1.1
  | .element _ _ :: _, h => exact h.1.1

theorem sound_opened {frames : List (Frame α π)} {owner : Option π} {t : Token} {r : Reader α π}
    (hf : SoundFrames limit holds ongoing frames)
    (ho : ∀ p, owner = some p → ongoing frames.length p)
    (h : opened limit frames owner t = .ok r) : Sound limit holds ongoing r := by
  unfold opened at h
  by_cases hlt : frames.length < limit
  · rw [if_pos hlt] at h
    split at h
    · obtain rfl := Except.ok.inj h
      exact ⟨hf, hlt, ho⟩
    · obtain rfl := Except.ok.inj h
      exact ⟨⟨⟨hlt, ho⟩, by simp, hf⟩, trivial⟩
  · simp [hlt] at h

theorem sound_named {frames : List (Frame α π)} {b : Bracket π} {done : List (FieldExpr α)}
    {t : Token} {r : Reader α π} (ht : t.WellNamed) (hf : SoundFrames limit holds ongoing frames)
    (hb : Bracket.Sound limit ongoing frames.length b)
    (hdone : SoundFields holds frames.length done) (h : named frames b done t = .ok r) :
    Sound limit holds ongoing r := by
  unfold named at h
  split at h
  · next label hlabel =>
    obtain rfl := Except.ok.inj h
    refine ⟨hf, hb, hdone, fun s hs => ?_⟩
    obtain rfl := FieldName.label.inj hs
    exact ht _ hlabel
  · split at h
    · simp at h
    · next name hname =>
      obtain rfl := Except.ok.inj h
      exact ⟨hf, hb, hdone, FieldName.wellNamed_of_ofDigits hname⟩
  · simp at h

section

variable (hk : Keeps g limit holds ongoing bracketed)

include hk

theorem sound_closed {frames : List (Frame α π)} {b : Bracket π} {x : α}
    (hf : SoundFrames limit holds ongoing frames) (hb : Bracket.Sound limit ongoing frames.length b)
    (hx : bracketed frames.length x) : Sound limit holds ongoing (closed g frames b x) := by
  unfold closed
  split
  · next p hp => exact ⟨hf, hk.join (hb.2 p hp) hx⟩
  · exact ⟨hf, hk.unbracketed hx⟩

theorem sound_closeBrace {frames : List (Frame α π)} {b : Bracket π}
    {fields : List (FieldExpr α)} {t : Token} {r : Reader α π}
    (hf : SoundFrames limit holds ongoing frames) (hb : Bracket.Sound limit ongoing frames.length b)
    (hfields : SoundFields holds frames.length fields)
    (h : closeBrace g frames b fields t = .ok r) : Sound limit holds ongoing r := by
  unfold closeBrace at h
  simp only at h
  split at h
  · simp at h
  · next hnames =>
    obtain rfl := Except.ok.inj h
    exact sound_closed hk hf hb (hk.record hb.1 hnames hfields)

theorem sound_closeParen {frames : List (Frame α π)} {b : Bracket π} {xs : List α} (t : Token)
    (hf : SoundFrames limit holds ongoing frames) (hb : Bracket.Sound limit ongoing frames.length b)
    (hxs : ∀ x ∈ xs, holds (frames.length + 1) x) :
    Sound limit holds ongoing (closeParen g frames b xs t) := by
  unfold closeParen
  split
  · next x => exact sound_closed hk hf hb (hk.parenthesized (hxs x List.mem_cons_self))
  · have hnames := FieldExpr.checkNames_positions g.span xs (b.opening.through t.span)
    refine sound_closed hk hf hb (hk.record hb.1 hnames fun f hf => ?_)
    exact ⟨FieldExpr.wellNamed_of_mem_positions hf, hxs _ (FieldExpr.item_mem_of_mem_positions hf)⟩

theorem sound_follow {frames : List (Frame α π)} {x : α} {t : Token} {o : Outcome α β π}
    (hf : SoundFrames limit holds ongoing frames) (hx : holds frames.length x)
    (h : follow g accept frames x t = .ok o) : SoundOutcome limit holds ongoing accept o := by
  match frames, hf with
  | [], _ =>
    simp only [follow] at h
    split at h
    · simp at h
    · next result haccept =>
      split at h
      · obtain rfl := Except.ok.inj h
        exact ⟨x, hx, haccept⟩
      · simp at h
  | .field b done name nameSpan :: frames, ⟨hb, hdone, hname, hf⟩ =>
    have hfields : SoundFields holds frames.length (done ++ [⟨name, nameSpan, x⟩]) := by
      intro f hf
      rcases List.mem_append.1 hf with hf | hf
      · exact hdone f hf
      · obtain rfl := List.mem_singleton.1 hf
        exact ⟨hname, hx⟩
    simp only [follow] at h
    split at h
    · obtain rfl := Except.ok.inj h
      exact ⟨hf, hb, hfields⟩
    · cases hc : closeBrace g frames b (done ++ [⟨name, nameSpan, x⟩]) t with
      | error e => simp [hc, Except.map] at h
      | ok r =>
        rw [hc] at h
        obtain rfl := Except.ok.inj h
        exact sound_closeBrace hk hf hb hfields hc
    · simp at h
  | .element b done :: frames, ⟨hb, hdone, hf⟩ =>
    have helements : ∀ y ∈ done ++ [x], holds (frames.length + 1) y := by
      intro y hy
      rcases List.mem_append.1 hy with hy | hy
      · exact hdone y hy
      · obtain rfl := List.mem_singleton.1 hy
        exact hx
    simp only [follow] at h
    split at h
    · obtain rfl := Except.ok.inj h
      exact ⟨⟨hb, helements, hf⟩, trivial⟩
    · obtain rfl := Except.ok.inj h
      exact sound_closeParen hk t hf hb helements
    · simp at h

theorem sound_begun {frames : List (Frame α π)} {t : Token} {r : Reader α π} (ht : t.WellNamed)
    (hf : SoundFrames limit holds ongoing frames) (h : begun g frames t = .ok r) :
    Sound limit holds ongoing r := by
  unfold begun at h
  split at h
  · simp at h
  · next x hx =>
    obtain rfl := Except.ok.inj h
    exact ⟨hf, hk.start_item ht hf.length_le hx⟩
  · next p hp =>
    obtain rfl := Except.ok.inj h
    exact ⟨hf, hk.start_part ht hf.length_le hp⟩

/-- One token keeps the property. -/
theorem sound_step {r : Reader α π} {t : Token} {o : Outcome α β π} (ht : t.WellNamed)
    (hr : Sound limit holds ongoing r) (h : r.step g limit accept t = .ok o) :
    SoundOutcome limit holds ongoing accept o := by
  have hmap {e : Except SyntaxError (Reader α π)}
      (he : ∀ r', e = .ok r' → Sound limit holds ongoing r') (h : e.map .next = .ok o) :
      SoundOutcome limit holds ongoing accept o := by
    cases e with
    | error e => simp [Except.map] at h
    | ok r' =>
      obtain rfl := Except.ok.inj h
      exact he r' rfl
  obtain ⟨frames, control⟩ := r
  obtain ⟨hf, hc⟩ := hr
  cases control with
  | item =>
    simp only [step] at h
    split at h
    · exact hmap (fun r' => sound_opened hf (by simp)) h
    · exact hmap (fun r' => sound_begun hk ht hf) h
  | part p =>
    simp only [step] at h
    split at h
    · simp at h
    · next x hx =>
      obtain rfl := Except.ok.inj h
      exact ⟨hf, hk.extend_whole ht hc hx⟩
    · next q hq =>
      obtain rfl := Except.ok.inj h
      exact ⟨hf, hk.extend_part ht hc hq⟩
    · refine hmap (fun r' => sound_opened hf ?_) h
      intro q hq
      obtain rfl := Option.some.inj hq
      exact hc
    · next x hx => exact sound_follow hk hf (hk.extend_ended hc hx) h
  | whole x => exact sound_follow hk hf hc h
  | firstName b =>
    simp only [step] at h
    split at h
    · exact hmap (fun r' => sound_closeBrace hk hf hc soundFields_nil) h
    · exact hmap (fun r' => sound_named ht hf hc soundFields_nil) h
  | nextName b done => exact hmap (fun r' => sound_named ht hf hc.1 hc.2) h
  | separator b done name nameSpan =>
    simp only [step] at h
    split at h
    · obtain rfl := Except.ok.inj h
      exact ⟨⟨hc.1, hc.2.1, hc.2.2, hf⟩, trivial⟩
    · simp at h

theorem holds_of_run {r : Reader α π} {tokens : List Token} {result : β}
    (ht : ∀ t ∈ tokens, t.WellNamed) (hr : Sound limit holds ongoing r)
    (h : r.run g limit accept tokens = .ok result) : ∃ x, holds 0 x ∧ accept x = .ok result := by
  induction tokens generalizing r with
  | nil => simp [run] at h
  | cons t rest ih =>
    rw [run] at h
    cases hs : r.step g limit accept t with
    | error e => simp [hs] at h
    | ok o =>
      have ho := sound_step hk (ht t List.mem_cons_self) hr hs
      cases o with
      | next r' =>
        have hrest : r'.run g limit accept rest = .ok result := by simpa [hs] using h
        exact ih (fun u hu => ht u (List.mem_cons_of_mem t hu)) ho hrest
      | done result' =>
        obtain rfl : result' = result := by simpa [hs] using h
        exact ho

theorem holds_of_read {text : String} {result : β} (h : g.read limit accept text = .ok result) :
    ∃ x, holds 0 x ∧ accept x = .ok result := by
  unfold Grammar.read at h
  cases hs : Token.scan text with
  | error e => simp [hs] at h
  | ok tokens =>
    rw [hs] at h
    exact holds_of_run hk (Token.wellNamed_of_scanFrom hs) sound_initial h

end

end RecordLens.Reader
