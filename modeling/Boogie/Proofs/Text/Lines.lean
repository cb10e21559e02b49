import Boogie.Source.LineTable

/-! Lines put together and cut apart again. -/
namespace Boogie

theorem Text.splitPlain {mark : Char} {part : List Char} (plain : mark ∉ part) : split mark part = [part] := by
  induction part with
  | nil => rfl
  | cons c rest ih =>
    have ⟨other, plainRest⟩ : c ≠ mark ∧ mark ∉ rest := by simpa [eq_comm] using plain
    rw [splitCons other, ih plainRest, consPart]

theorem Text.splitAppend {mark : Char} {part : List Char} (plain : mark ∉ part) (rest : List Char) :
    split mark (part ++ mark :: rest) = part :: split mark rest := by
  induction part with
  | nil => exact splitMark mark rest
  | cons c part ih =>
    have ⟨other, plainPart⟩ : c ≠ mark ∧ mark ∉ part := by simpa [eq_comm] using plain
    rw [List.cons_append, splitCons other, ih plainPart, consPart]

theorem Text.splitPartsPlain (mark : Char) (text : List Char) : ∀ part ∈ split mark text, mark ∉ part := by
  induction text with
  | nil => simp
  | cons c rest ih =>
    by_cases same : c = mark
    · subst same
      rw [splitMark]
      exact List.forall_mem_cons.mpr ⟨List.not_mem_nil, ih⟩
    · rw [splitCons same]
      cases parts : split mark rest with
      | nil => exact absurd parts (splitNe mark rest)
      | cons part more =>
        rw [parts] at ih
        obtain ⟨first, others⟩ := List.forall_mem_cons.mp ih
        refine List.forall_mem_cons.mpr ⟨?_, others⟩
        rw [List.mem_cons, not_or]
        exact ⟨Ne.symm same, first⟩

theorem Text.joinCons (mark : Char) (part next : List Char) (rest : List (List Char)) :
    join mark (part :: next :: rest) = part ++ mark :: join mark (next :: rest) := by
  simp [join, List.intercalate]

theorem Text.splitJoin {mark : Char} {parts : List (List Char)} (some : parts ≠ [])
    (plain : ∀ part ∈ parts, mark ∉ part) : split mark (join mark parts) = parts := by
  induction parts with
  | nil => contradiction
  | cons part rest ih =>
    obtain ⟨first, others⟩ := List.forall_mem_cons.mp plain
    cases rest with
    | nil => simpa [join] using splitPlain first
    | cons next more => rw [joinCons, splitAppend first, ih (List.cons_ne_nil _ _) others]

theorem Text.joinSplit (mark : Char) (text : List Char) : join mark (split mark text) = text := by
  induction text with
  | nil => rfl
  | cons c rest ih =>
    by_cases same : c = mark
    · subst same
      rw [splitMark]
      cases parts : split c rest with
      | nil => exact absurd parts (splitNe c rest)
      | cons part more => rw [joinCons, ← parts, ih, List.nil_append]
    · rw [splitCons same]
      cases parts : split mark rest with
      | nil => exact absurd parts (splitNe mark rest)
      | cons part more =>
        rw [parts] at ih
        cases more with
        | nil => simpa [join, consPart] using congrArg (c :: ·) ih
        | cons next others =>
          rw [consPart, joinCons, List.cons_append, ← joinCons, ih]

theorem linePlain {text line : List Char} (mem : line ∈ splitLines text) : '\n' ∉ line :=
  Text.splitPartsPlain '\n' text line mem

theorem splitLinesNe (text : List Char) : splitLines text ≠ [] := Text.splitNe '\n' text

end Boogie
