import RecordLens.Proofs.Lens.Laws

/-! Composition of lenses. A lens is nothing beyond its source type and its path, from which its
steps and its target follow, and to compose lenses is to put their paths one behind the other. -/

namespace RecordLens

namespace Lens

theorem derivePath_eq_ok_iff {t : Ty} {p : Path} {l : Lens} :
    Lens.derivePath t p = .ok l ↔
      l.source = t ∧ l.path = p ∧ t.resolve p = .ok (l.steps, l.target) := by
  constructor
  · exact deriveAt_ok
  · rintro ⟨rfl, rfl, h⟩
    rw [Lens.derivePath, deriveAt, h]

/-- A lens, however it was built, is the one of its path. -/
theorem Built.derivePath_path [Alphabet] {l : Lens} (h : l.Built) :
    Lens.derivePath l.source l.path = .ok l :=
  derivePath_eq_ok_iff.2 ⟨rfl, rfl, h.resolve⟩

theorem exists_compose_iff {outer inner : Lens} :
    (∃ l, outer.compose inner = .ok l) ↔ outer.target = inner.source := by
  constructor
  · rintro ⟨l, h⟩
    exact (compose_ok.1 h).1
  · intro h
    exact ⟨_, compose_ok.2 ⟨h, rfl⟩⟩

theorem Built.derivePath_append [Alphabet] {outer inner l : Lens} (ho : outer.Built)
    (hi : inner.Built) (h : outer.compose inner = .ok l) :
    Lens.derivePath outer.source (outer.path ++ inner.path) = .ok l := by
  have hl : l.Built := .compose ho hi h
  obtain ⟨-, rfl⟩ := compose_ok.1 h
  exact hl.derivePath_path

theorem bind_eq_ok_iff {ε α β : Type} {x : Except ε α} {f : α → Except ε β} {b : β} :
    (x >>= f) = .ok b ↔ ∃ a, x = .ok a ∧ f a = .ok b := by
  cases x with
  | error e => exact ⟨nofun, nofun⟩
  | ok a =>
    constructor
    · intro h
      exact ⟨a, rfl, h⟩
    · rintro ⟨_, ha, h⟩
      cases ha
      exact h

/-- Both ways to compose three lenses succeed together, and give the same lens. -/
theorem compose_assoc {a b c l : Lens} :
    (a.compose b >>= fun ab => ab.compose c) = .ok l ↔
      (b.compose c >>= fun bc => a.compose bc) = .ok l := by
  simp only [bind_eq_ok_iff, compose_ok]
  constructor
  · rintro ⟨_, ⟨hab, rfl⟩, hbc, rfl⟩
    exact ⟨_, ⟨hbc, rfl⟩, hab, by simp only [List.append_assoc]⟩
  · rintro ⟨_, ⟨hbc, rfl⟩, hab, rfl⟩
    exact ⟨_, ⟨hab, rfl⟩, hbc, by simp only [List.append_assoc]⟩

theorem identity_compose (l : Lens) : (identity l.source).compose l = .ok l :=
  compose_ok.2 ⟨rfl, rfl⟩

theorem compose_identity (l : Lens) : l.compose (identity l.target) = .ok l :=
  compose_ok.2 ⟨rfl, by simp [identity]⟩

/-- Lenses compose as their paths do. Each is the lens that its source derives from its path, two
compose exactly where the inner one begins at what the outer one shows, to the lens of both paths,
and the order in which three are composed does not matter. Identities are the units. -/
theorem compose_as_paths [Alphabet] {a b c : Lens} (ha : a.Built) (hb : b.Built) (hc : c.Built) :
    (Lens.derivePath a.source a.path = .ok a ∧ Lens.derivePath b.source b.path = .ok b ∧
      Lens.derivePath c.source c.path = .ok c) ∧
    ((∃ l, a.compose b = .ok l) ↔ a.target = b.source) ∧
    (∀ l, a.compose b = .ok l → Lens.derivePath a.source (a.path ++ b.path) = .ok l) ∧
    (∀ l, (a.compose b >>= fun ab => ab.compose c) = .ok l ↔
      (b.compose c >>= fun bc => a.compose bc) = .ok l) ∧
    (identity a.source).compose a = .ok a ∧ a.compose (identity a.target) = .ok a := by
  refine ⟨⟨ha.derivePath_path, hb.derivePath_path, hc.derivePath_path⟩, exists_compose_iff, ?_, ?_,
    identity_compose a, compose_identity a⟩
  · intro l h
    exact ha.derivePath_append hb h
  · intro l
    exact compose_assoc

def birthday : Lens := ⟨personType.ty, dateType.ty, [.label "birthday"], [0]⟩

def year : Lens := ⟨dateType.ty, .primitive .int, [.label "year"], [1]⟩

/-- The year of the birthday, derived at once, composed, and with an identity behind it. -/
theorem compose_as_paths_birthYear :
    birthday.Built ∧ year.Built ∧ (identity (.primitive .int)).Built ∧
      birthday.compose year = .ok birthYear ∧
      Lens.derivePath personType.ty [.label "birthday", .label "year"] = .ok birthYear ∧
      (year.compose (identity (.primitive .int)) >>= fun l => birthday.compose l) =
        .ok birthYear := by
  have hb : birthday.Built := .derivePath (t := personType.ty) (p := [.label "birthday"]) rfl
  have hy : year.Built := .derivePath (t := dateType.ty) (p := [.label "year"]) rfl
  have hi : (identity (.primitive .int)).Built := .identity _
  obtain ⟨-, -, hpath, hassoc, -⟩ := compose_as_paths hb hy hi
  exact ⟨hb, hy, hi, rfl, hpath birthYear rfl, (hassoc birthYear).1 rfl⟩

variable {outer inner l : Lens} {v leaf : Value}

theorem get_compose (h : outer.compose inner = .ok l) {m : Value} (hm : outer.get v = .ok m)
    (hleaf : inner.get m = .ok leaf) : l.get v = .ok leaf := by
  obtain ⟨-, rfl⟩ := compose_ok.1 h
  obtain ⟨hs, hd⟩ := get_ok.1 hm
  exact get_ok.2 ⟨hs, descend_append.2 ⟨m, hd, (get_ok.1 hleaf).2⟩⟩

theorem set_compose (h : outer.compose inner = .ok l) {m n w : Value} (hm : outer.get v = .ok m)
    (hn : inner.set m leaf = .ok n) (hw : outer.set v n = .ok w) : l.set v leaf = .ok w := by
  obtain ⟨-, rfl⟩ := compose_ok.1 h
  obtain ⟨hs, hd⟩ := get_ok.1 hm
  obtain ⟨-, ht, hr⟩ := set_ok.1 hn
  exact set_ok.2 ⟨hs, ht, replace_append.2 ⟨m, n, hd, hr, (set_ok.1 hw).2.2⟩⟩

/-- A composed lens acts by its parts. It gets wherever the outer lens does, and then what the inner
one gets from there; it sets wherever the inner lens sets in what the outer one gets, and then what
the outer one sets to hold the result. -/
theorem compose_acts_by_parts [Alphabet] (ho : outer.Built) (hi : inner.Built)
    (h : outer.compose inner = .ok l) (hv : v.WellTyped) (hleaf : leaf.WellTyped) :
    ((∃ x, l.get v = .ok x) ↔ ∃ m, outer.get v = .ok m) ∧
    (∀ m, outer.get v = .ok m → ∃ x, inner.get m = .ok x ∧ l.get v = .ok x) ∧
    ((∃ w, l.set v leaf = .ok w) ↔ ∃ m n, outer.get v = .ok m ∧ inner.set m leaf = .ok n) ∧
    ∀ m n, outer.get v = .ok m → inner.set m leaf = .ok n →
      ∃ w, outer.set v n = .ok w ∧ l.set v leaf = .ok w := by
  obtain ⟨hseam, hl⟩ := compose_ok.1 h
  have hsource : l.source = outer.source := by rw [hl]
  have htarget : l.target = inner.target := by rw [hl]
  have hget (m : Value) (hm : outer.get v = .ok m) :
      ∃ x, inner.get m = .ok x ∧ l.get v = .ok x := by
    obtain ⟨haccepts, hwell⟩ := ho.of_get hv hm
    obtain ⟨x, hx, -⟩ := hi.exists_get hwell (hseam ▸ haccepts)
    exact ⟨x, hx, get_compose h hm hx⟩
  have hset (m n : Value) (hm : outer.get v = .ok m) (hn : inner.set m leaf = .ok n) :
      ∃ w, outer.set v n = .ok w ∧ l.set v leaf = .ok w := by
    obtain ⟨-, hwell⟩ := ho.of_get hv hm
    obtain ⟨haccepts, hwell'⟩ := hi.of_set hwell hleaf hn
    obtain ⟨w, hw, -⟩ := ho.exists_set hv (get_ok.1 hm).1 hwell' (hseam ▸ haccepts)
    exact ⟨w, hw, set_compose h hm hn hw⟩
  refine ⟨⟨?_, ?_⟩, hget, ⟨?_, ?_⟩, hset⟩
  · rintro ⟨x, hx⟩
    obtain ⟨m, hm, -⟩ := ho.exists_get hv (hsource ▸ (get_ok.1 hx).1)
    exact ⟨m, hm⟩
  · rintro ⟨m, hm⟩
    obtain ⟨x, -, hx⟩ := hget m hm
    exact ⟨x, hx⟩
  · rintro ⟨w, hw⟩
    obtain ⟨hs, ht, -⟩ := set_ok.1 hw
    obtain ⟨m, hm, haccepts, hwell⟩ := ho.exists_get hv (hsource ▸ hs)
    obtain ⟨n, hn, -⟩ := hi.exists_set hwell (hseam ▸ haccepts) hleaf (htarget ▸ ht)
    exact ⟨m, n, hm, hn⟩
  · rintro ⟨m, n, hm, hn⟩
    obtain ⟨w, -, hw⟩ := hset m n hm hn
    exact ⟨w, hw⟩

/-- To put back the year of a person is to put back the birthday with its year put back. -/
theorem compose_acts_by_parts_birthYear :
    birthday.Built ∧ year.Built ∧ birthday.compose year = .ok birthYear ∧ gagarin.WellTyped ∧
      ∃ w, birthday.set gagarin (.record dateType [.scalar (.int 9), .scalar (.int 1935)]) =
          .ok w ∧
        birthYear.set gagarin (.scalar (.int 1935)) = .ok w := by
  have hb : birthday.Built := .derivePath (t := personType.ty) (p := [.label "birthday"]) rfl
  have hy : year.Built := .derivePath (t := dateType.ty) (p := [.label "year"]) rfl
  obtain ⟨-, -, -, hset⟩ := compose_acts_by_parts hb hy (l := birthYear) rfl
    (v := gagarin) (by decide) (Value.wellTyped_scalar (.int 1935))
  exact ⟨hb, hy, rfl, by decide, hset _ _ rfl rfl⟩

end Lens

end RecordLens
