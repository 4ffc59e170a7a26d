import AutoCool.Proofs.Cool.Fixpoint

/-!
# The scopes in which inference meets the expressions

Inference finds the scope of a part of an expression by its place among the children of the scope of
the expression. So it meets the expressions of a program in the scopes that can be read off the tree
(`Program.scopes`), in the same order, whatever was noted before and whatever it infers on the way
(`Walkable.noteScopes_eq`).
-/

namespace AutoCool.Cool

variable {p : Program} {s i j : Nat} {l l' : List Nat} {a a' a'' : Analysis}

/-- A walk met expressions in the scopes `l`, and noted these. -/
structure Marked (l : List Nat) (a a' : Analysis) : Prop where
  size_notes : a'.notes.size = a.notes.size
  cursor_eq : a'.cursor = a.cursor + l.length
  made : ∀ j < l.length, a'.scopeAt (a.cursor + j) = l[j]?
  kept : ∀ j < a.cursor, a'.scopeAt j = a.scopeAt j

theorem marked_of_eq (hnotes : a'.notes = a.notes) (hcursor : a'.cursor = a.cursor) :
    Marked [] a a' where
  size_notes := by rw [hnotes]
  cursor_eq := hcursor
  made _ hj := nomatch hj
  kept j _ := by rw [Analysis.scopeAt, hnotes, Analysis.scopeAt]

theorem Marked.trans (h : Marked l a a') (h' : Marked l' a' a'') : Marked (l ++ l') a a'' where
  size_notes := h'.size_notes.trans h.size_notes
  cursor_eq := by rw [h'.cursor_eq, h.cursor_eq, List.length_append, Nat.add_assoc]
  made j hj := by
    have hcursor := h.cursor_eq
    rw [List.length_append] at hj
    by_cases hlt : j < l.length
    · rw [h'.kept _ (by omega), h.made j hlt, List.getElem?_append_left hlt]
    · have hmade := h'.made (j - l.length) (by omega)
      rw [hcursor, Nat.add_assoc, Nat.add_sub_cancel' (by omega)] at hmade
      rw [hmade, List.getElem?_append_right (by omega)]
  kept j hj := by
    have hcursor := h.cursor_eq
    rw [h'.kept j (by omega), h.kept j hj]

theorem marked_entered (hlt : a.cursor < a.notes.size) : Marked [s] a (a.entered s) := by
  refine ⟨?_, rfl, fun j hj => ?_, fun j hj => ?_⟩
  · simp [Analysis.entered, hlt]
  · cases Nat.lt_one_iff.1 hj
    rw [Nat.add_zero, scopeAt_entered hlt, if_pos rfl]
    rfl
  · rw [scopeAt_entered hlt, if_neg (by omega)]

theorem marked_settled : Marked [] a (a.settled i r) :=
  ⟨by simp [Analysis.settled], rfl, fun _ hj => (nomatch hj), fun _ _ => scopeAt_settled⟩

theorem marked_bounded : Marked [] a { a with scopes := a.scopes.modify v f } :=
  marked_of_eq rfl rfl

theorem Named.marked (h : Named t s name a a' u) : Marked [] a a' := by
  cases h with
  | unknown | known => exact marked_of_eq rfl rfl
  | bounded _ heq => exact heq ▸ marked_bounded

theorem Infers.marked (h : Infers p a a') : Marked [] a a' := by
  cases h <;> exact marked_of_eq rfl rfl

theorem Marked.room (h : Marked l a a') (hsize : a.cursor + (l ++ l').length ≤ a.notes.size) :
    a'.cursor + l'.length ≤ a'.notes.size := by
  rw [h.cursor_eq, h.size_notes, Nat.add_assoc, ← List.length_append]
  exact hsize

theorem Trace.marked (h : Trace p t l w a a') (hsize : a.cursor + l.length ≤ a.notes.size) :
    Marked l a a' := by
  -- an expression is noted where it is met, and only the number of notes that are left counts
  have henter : ∀ {s l a}, Analysis.cursor a + (s :: l).length ≤ a.notes.size →
      Marked [s] a (a.entered s) := fun hsize =>
    marked_entered (Nat.lt_of_lt_of_le (Nat.lt_add_of_pos_right (Nat.succ_pos _)) hsize)
  induction h with
  | nil => exact marked_of_eq rfl rfl
  | enter _ _ ih => exact (henter hsize).trans (ih ((henter hsize).room hsize))
  | name hname _ ih =>
    have hmet := (henter hsize).trans hname.marked
    exact hmet.trans (marked_settled.trans (ih (marked_settled.room (hmet.room hsize))))
  | assign _ _ _ ihx ih =>
    have hroom := (henter hsize).room hsize
    have hmet := (henter hsize).trans (ihx (Nat.le_trans (Nat.add_le_add_left (by simp) _) hroom))
    refine hmet.trans (marked_bounded.trans (marked_settled.trans (ih ?_)))
    exact marked_settled.room (hmet.room hsize)
  | settle _ _ _ ih => exact marked_settled.trans (ih (marked_settled.room hsize))
  | bound _ _ ih => exact marked_bounded.trans (ih hsize)
  | infer h _ ih => exact h.marked.trans (ih (h.marked.room hsize))

theorem Walkable.noteScopes_eq (h : Walkable p a) (hrun : (infer p).outcome a = (none, b)) :
    b.noteScopes = p.scopes a.scopes := by
  obtain ⟨_, -, hmoved, -⟩ := (infer_walks h).of_outcome hrun
  have hlength : (p.scopes a.scopes).length = p.nodes.length := length_scopesOfClasses h.fits
  have hmarked :=
    (h.trace hrun).marked (by rw [hlength, ← h.size_notes]; exact Nat.le_of_eq (Nat.zero_add _))
  have hsize : b.notes.size = p.nodes.length := hmoved.size_notes.trans h.size_notes
  refine List.ext_getElem? fun j => ?_
  by_cases hj : j < p.nodes.length
  · have hmade := hmarked.made j (hlength ▸ hj)
    rw [show a.restarted.cursor + j = j from Nat.zero_add j] at hmade
    rw [← hmade, Analysis.noteScopes, Analysis.scopeAt, List.getElem?_map, Array.getElem?_toList]
  · have hnotes : b.noteScopes.length = b.notes.size := by
      rw [Analysis.noteScopes, List.length_map, Array.length_toList]
    rw [List.getElem?_eq_none (l := b.noteScopes) (by omega), List.getElem?_eq_none (by omega)]

end AutoCool.Cool
