import CategorialChart.Proofs.Category.Acceptance

/-! # Spelling and reading

`Category.spell` writes any category, also one whose names the notation does not have. The
categories whose spelling is read back are the well-formed ones, and these are all that reading can
give.

* `WellFormed.derives_spell`: a well-formed category is written by its spelling.
* `Derives.wellFormed`: whatever a text writes is well-formed.
* `parse_toString_iff`: reading takes spelling back exactly on the well-formed categories. -/

namespace CategorialChart.Category

/-! ### Spelling stays in the grammar -/

theorem derivesPrimary_atom {name : String} {feature : Option String}
    (h : (atom name feature).WellFormed) :
    DerivesPrimary (atom name feature).spell (atom name feature) := by
  cases feature with
  | none =>
    have hname : IsName name.toList := h
    have hd := DerivesPrimary.plain hname
    rw [String.ofList_toList] at hd
    exact hd
  | some feature =>
    obtain ⟨hname, hfeature⟩ : IsName name.toList ∧ IsFeature feature.toList := h
    have hd := DerivesPrimary.featured hname hfeature
    rw [String.ofList_toList, String.ofList_toList] at hd
    exact hd

/-- The parentheses of an operand are those that a primary needs. -/
theorem derivesPrimary_operand {c : Category} (hc : c.WellFormed) (h : Derives c.spell c) :
    DerivesPrimary (spell.operand c.isFunctor c.spell) c := by
  cases c with
  | atom name feature => exact derivesPrimary_atom hc
  | functor result slash argument => exact .enclosed h

/-- **A well-formed category is written by its spelling.** -/
theorem WellFormed.derives_spell {c : Category} (h : c.WellFormed) : Derives c.spell c := by
  induction c with
  | atom name feature => exact .primary (derivesPrimary_atom h)
  | functor result slash argument ihr iha =>
    obtain ⟨hr, ha⟩ := h
    have hresult := derivesPrimary_operand hr (ihr hr)
    have hargument := derivesPrimary_operand ha (iha ha)
    rw [spell]
    exact .slash slash (.primary hresult) hargument

/-! ### What can be written -/

mutual

theorem DerivesPrimary.wellFormed : ∀ {s : List Char} {c : Category}, DerivesPrimary s c →
    c.WellFormed
  | _, _, .plain hname => by
    rw [WellFormed, String.toList_ofList]
    exact hname
  | _, _, .featured hname hfeature => by
    rw [WellFormed, String.toList_ofList, String.toList_ofList]
    exact ⟨hname, hfeature⟩
  | _, _, .enclosed hs => hs.wellFormed

/-- **Whatever a text writes is well-formed.** -/
theorem Derives.wellFormed : ∀ {s : List Char} {c : Category}, Derives s c → c.WellFormed
  | _, _, .primary hs => hs.wellFormed
  | _, _, .slash _ hs ht => ⟨hs.wellFormed, ht.wellFormed⟩

end

/-! ### Round trips -/

theorem toList_toString (c : Category) : (toString c).toList = c.spell :=
  String.toList_ofList

theorem parse_toString_iff {c : Category} : parse (toString c) = .ok c ↔ c.WellFormed := by
  rw [parse_eq_ok_iff, toList_toString]
  exact ⟨Derives.wellFormed, WellFormed.derives_spell⟩

/-- **Reading takes spelling back** exactly on the well-formed categories, and gives no others. So
what was read is read back from its spelling, and well-formed categories that are spelled alike are
equal. -/
theorem parse_toString_inverse :
    (∀ c : Category, parse (toString c) = .ok c ↔ c.WellFormed) ∧
      (∀ (t : String) (c : Category), parse t = .ok c →
        c.WellFormed ∧ parse (toString c) = .ok c) ∧
      ∀ c d : Category, c.WellFormed → d.WellFormed → toString c = toString d → c = d := by
  refine ⟨fun c => parse_toString_iff, fun t c h => ?_, fun c d hc hd h => ?_⟩
  · have hc := (parse_eq_ok_iff.mp h).wellFormed
    exact ⟨hc, parse_toString_iff.mpr hc⟩
  · have h1 := parse_toString_iff.mpr hc
    have h2 := parse_toString_iff.mpr hd
    rw [h] at h1
    exact Except.ok.inj (h1.symm.trans h2)

end CategorialChart.Category
