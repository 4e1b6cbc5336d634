import ConstLang.Text.Quoted

/-!
Displayed text is unambiguous. No character is displayed as the beginning of another one, so the
characters between the quotes can be told apart.
-/

namespace ConstLang.Text

/-- The characters that are displayed by an escape: both that would end or begin one, and those
below the space. -/
def escaped : List Char := '\x22' :: '\\' :: (List.range 0x20).map Char.ofNat

theorem displayChar_of_not_escaped {c : Char} (h : c ∉ escaped) : displayChar c = [c] := by
  have quote : c ≠ '\x22' := by
    rintro rfl
    exact h (by decide)
  have backslash : c ≠ '\\' := by
    rintro rfl
    exact h (by decide)
  have printed : ¬ c.toNat < 0x20 := by
    intro control
    refine h (List.mem_cons_of_mem _ (List.mem_cons_of_mem _ (List.mem_map.mpr ?_)))
    exact ⟨c.toNat, List.mem_range.mpr control, Char.ofNat_toNat c⟩
  have other {d : Char} (control : d.toNat < 0x20) : c ≠ d := by
    rintro rfl
    exact printed control
  have newline : c ≠ '\n' := other (by decide)
  have carriage : c ≠ '\r' := other (by decide)
  have tab : c ≠ '\t' := other (by decide)
  have backspace : c ≠ '\x08' := other (by decide)
  have feed : c ≠ '\x0c' := other (by decide)
  simp only [displayChar, quote, backslash, newline, carriage, tab, backspace, feed, printed,
    or_self, if_false]

/-- An escape is a backslash with something behind it. -/
theorem displayChar_escaped : ∀ c ∈ escaped, ∃ d cs, displayChar c = '\\' :: d :: cs := by
  have shapes : escaped.all fun c =>
      (displayChar c).head? = some '\\' ∧ 2 ≤ (displayChar c).length := by decide +kernel
  intro c hc
  obtain ⟨head, long⟩ := of_decide_eq_true (List.all_eq_true.mp shapes c hc)
  match displayChar c, head, long with
  | _ :: d :: cs, rfl, _ => exact ⟨d, cs, rfl⟩

theorem escapes_apart :
    ∀ a ∈ escaped, ∀ b ∈ escaped, displayChar a <+: displayChar b → a = b := by
  have apart : escaped.all fun a => escaped.all fun b =>
      displayChar a <+: displayChar b → a = b := by decide +kernel
  intro a ha b hb
  exact of_decide_eq_true (List.all_eq_true.mp (List.all_eq_true.mp apart a ha) b hb)

/-- No character is displayed as the beginning of another one. -/
theorem displayChar_prefix_free {a b : Char} (h : displayChar a <+: displayChar b) : a = b := by
  have backslash : '\\' ∈ escaped := by decide
  by_cases ha : a ∈ escaped
  · by_cases hb : b ∈ escaped
    · exact escapes_apart a ha b hb h
    · obtain ⟨d, cs, text⟩ := displayChar_escaped a ha
      rw [text, displayChar_of_not_escaped hb] at h
      have short := h.length_le
      simp at short
  · by_cases hb : b ∈ escaped
    · obtain ⟨d, cs, text⟩ := displayChar_escaped b hb
      rw [text, displayChar_of_not_escaped ha, List.cons_prefix_cons] at h
      exact absurd (h.1 ▸ backslash) ha
    · rw [displayChar_of_not_escaped ha, displayChar_of_not_escaped hb,
        List.cons_prefix_cons] at h
      exact h.1

theorem displayChar_ne_nil (c : Char) : displayChar c ≠ [] := by
  by_cases h : c ∈ escaped
  · obtain ⟨d, cs, text⟩ := displayChar_escaped c h
    simp [text]
  · simp [displayChar_of_not_escaped h]

theorem flatMap_displayChar_injective {xs ys : List Char}
    (h : xs.flatMap displayChar = ys.flatMap displayChar) : xs = ys := by
  induction xs generalizing ys with
  | nil =>
      cases ys with
      | nil => rfl
      | cons y ys => simp [displayChar_ne_nil] at h
  | cons x xs ih =>
      cases ys with
      | nil => simp [displayChar_ne_nil] at h
      | cons y ys =>
          rw [List.flatMap_cons, List.flatMap_cons] at h
          have begins := List.prefix_append (displayChar x) (xs.flatMap displayChar)
          have begins' := List.prefix_append (displayChar y) (ys.flatMap displayChar)
          rw [← h] at begins'
          have first : x = y := by
            rcases List.prefix_or_prefix_of_prefix begins begins' with before | before
            · exact displayChar_prefix_free before
            · exact (displayChar_prefix_free before).symm
          subst first
          rw [ih (List.append_cancel_left h)]

/-- Different texts are displayed differently. -/
theorem display_injective {s t : String} (h : display s = display t) : s = t := by
  have chars := String.ofList_injective h
  have inside := List.append_cancel_right (List.cons.inj chars).2
  exact String.toList_injective (flatMap_displayChar_injective inside)

end ConstLang.Text
