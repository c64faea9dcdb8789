/-!
# Blank characters

The characters with the Unicode property `White_Space`, at which position texts are cut into fields.

Model of the cutting of a text at white space, by the property that the standard defines.

* `isBlank_of_isDigit`, `isBlank_of_isAlpha`: no digit and no letter is among them.
* `fields_append_cons_of_blank`: a text falls apart at a blank.
* `fields_intercalate`: fields that are joined with a blank are found again.
-/

namespace Xiangqi.Text

/-- The code points with the property `White_Space`, as ranges with both ends included. -/
def blankRanges : List (Nat × Nat) :=
  [(0x09, 0x0d), (0x20, 0x20), (0x85, 0x85), (0xa0, 0xa0), (0x1680, 0x1680), (0x2000, 0x200a),
    (0x2028, 0x2029), (0x202f, 0x202f), (0x205f, 0x205f), (0x3000, 0x3000)]

/-- Whether a character is blank. -/
def isBlank (c : Char) : Bool :=
  blankRanges.any fun r => r.1 ≤ c.toNat && c.toNat ≤ r.2

/-- The stretches of a text between its blank characters, leaving out empty ones. -/
def fields (cs : List Char) : List (List Char) :=
  (cs.splitOnP isBlank).filter (· ≠ [])

theorem isBlank_of_isDigit {c : Char} (h : c.isDigit = true) : isBlank c = false := by
  have h : 48 ≤ c.toNat ∧ c.toNat ≤ 57 := Char.isDigit_iff_toNat.mp h
  simp [isBlank, blankRanges]
  omega

theorem isBlank_of_isAlpha {c : Char} (h : c.isAlpha = true) : isBlank c = false := by
  have hletter : 65 ≤ c.toNat ∧ c.toNat ≤ 90 ∨ 97 ≤ c.toNat ∧ c.toNat ≤ 122 := by
    have h : (decide (c.val ≥ 'A'.val ∧ c.val ≤ 'Z'.val) ||
      (decide (c.val ≥ 'a'.val) && decide (c.val ≤ 'z'.val))) = true := h
    simpa [UInt32.le_iff_toNat_le, ← Char.toNat_val] using h
  simp [isBlank, blankRanges]
  omega

/-- A text falls apart at a blank. -/
theorem fields_append_cons_of_blank {c : Char} (as cs : List Char) (h : isBlank c = true) :
    fields (as ++ c :: cs) = fields as ++ fields cs := by
  unfold fields
  rw [List.splitOnP_append_cons as cs h, List.filter_append]

/-- A stretch of a text without blanks. -/
structure IsField (cs : List Char) : Prop where
  ne_nil : cs ≠ []
  solid : ∀ c ∈ cs, isBlank c = false

theorem isField_singleton {c : Char} (h : isBlank c = false) : IsField [c] :=
  ⟨List.cons_ne_nil c [], List.forall_mem_singleton.mpr h⟩

theorem IsField.fields_eq {cs : List Char} (h : IsField cs) : fields cs = [cs] := by
  unfold fields
  rw [List.splitOnP_eq_singleton h.solid]
  simp [h.ne_nil]

theorem mem_of_mem_intercalate {sep c : Char} {words : List (List Char)}
    (h : c ∈ [sep].intercalate words) : c = sep ∨ ∃ word ∈ words, c ∈ word := by
  induction words with
  | nil => simp at h
  | cons word words ih =>
    cases words with
    | nil =>
      rw [List.intercalate_singleton] at h
      exact Or.inr ⟨word, List.mem_cons_self, h⟩
    | cons next words =>
      rw [List.intercalate_cons_cons, List.append_assoc, List.mem_append, List.singleton_append,
        List.mem_cons] at h
      rcases h with h | h | h
      · exact Or.inr ⟨word, List.mem_cons_self, h⟩
      · exact Or.inl h
      · exact (ih h).imp_right fun ⟨w, hw, hc⟩ => ⟨w, List.mem_cons_of_mem _ hw, hc⟩

/-- Fields that are joined with a blank are found again. -/
theorem fields_intercalate {c : Char} (hc : isBlank c = true) {words : List (List Char)}
    (h : ∀ word ∈ words, IsField word) : fields ([c].intercalate words) = words := by
  induction words with
  | nil => simp [fields]
  | cons word words ih =>
    have hword := h word List.mem_cons_self
    have hrest := ih fun w hw => h w (List.mem_cons_of_mem _ hw)
    cases words with
    | nil => rw [List.intercalate_singleton, hword.fields_eq]
    | cons next words =>
      rw [List.intercalate_cons_cons, List.append_assoc, List.singleton_append,
        fields_append_cons_of_blank _ _ hc, hword.fields_eq, hrest, List.singleton_append]

end Xiangqi.Text
