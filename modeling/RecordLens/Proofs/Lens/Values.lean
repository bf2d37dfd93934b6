import RecordLens.Proofs.Lens.Laws
import RecordLens.Proofs.Ty.Handles

/-! The values that lenses make. They are made of the whole and the leaf that are given, and every
record on the way is rebuilt at an index that it has. -/

namespace RecordLens

namespace Lens

variable {l : Lens} {v leaf w : Value}

theorem Built.wellTyped_get [Alphabet] (h : l.Built) (hv : v.WellTyped)
    (hget : l.get v = .ok leaf) : leaf.WellTyped :=
  (h.of_get hv hget).2

theorem Built.wellTyped_set [Alphabet] (h : l.Built) (hv : v.WellTyped) (hl : leaf.WellTyped)
    (hset : l.set v leaf = .ok w) : w.WellTyped :=
  (h.of_set hv hl hset).2

theorem modify_ok {f : Value → Value} :
    l.modify v f = .ok w ↔ ∃ x, l.get v = .ok x ∧ l.set v (f x) = .ok w := by
  rw [modify]
  cases l.get v <;> simp [bind, Except.bind]

theorem lt_size_of_replace {i : Nat} {steps : List Nat}
    (h : replace v (i :: steps) leaf = some w) : ∃ r, v.record? = some r ∧ i < r.size := by
  obtain ⟨type, values, child, -, rfl, hchild, -⟩ := replace_cons.1 h
  exact ⟨⟨type, values⟩, rfl, (List.getElem?_eq_some_iff.1 hchild).1⟩

theorem handles_replace_subset {steps : List Nat} (h : replace v steps leaf = some w) :
    w.handles ⊆ v.handles ++ leaf.handles := by
  induction steps generalizing v w with
  | nil =>
    obtain rfl : leaf = w := Option.some.inj h
    exact List.subset_append_right _ _
  | cons i steps ih =>
    obtain ⟨type, values, child, child', rfl, hchild, hreplace, rfl⟩ := replace_cons.1 h
    intro r hr
    rw [Value.handles_record, List.mem_append, List.mem_flatMap] at hr
    rw [Value.handles_record, List.mem_append, List.mem_append, List.mem_flatMap]
    rcases hr with hr | ⟨x, hx, hr⟩
    · exact .inl (.inl hr)
    · rcases List.mem_or_eq_of_mem_set hx with hx | rfl
      · exact .inl (.inr ⟨x, hx, hr⟩)
      · rcases List.mem_append.1 (ih hreplace hr) with hr | hr
        · exact .inl (.inr ⟨child, List.mem_of_getElem? hchild, hr⟩)
        · exact .inr hr

end Lens

end RecordLens
