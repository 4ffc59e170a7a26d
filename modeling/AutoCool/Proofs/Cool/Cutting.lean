import AutoCool.Proofs.Cool.Patterns
import AutoCool.Proofs.Cool.Productions

/-!
# Cutting lines into segments

`Cut` says how a line is to be cut, in terms of the patterns of the rules and their order. The lexer
cuts every line that way (`segments_cut`), and there is no other way (`Cut.segments_eq`).
-/

namespace AutoCool.Cool.Lexer

/-! ### How a line is cut -/

def blanks : List Char := [' ', '\n', '\x0c', '\r', '\t', '\x0b']

/-- The rule is the first one in the order whose pattern describes a front of the text, and its
pattern takes the given one. -/
structure Rule.TakesFirst (r : Rule) (text w : List Char) : Prop where
  first : ∃ before after, Rule.order = before ++ r :: after ∧ ∀ q ∈ before, q.pattern.Misses text
  takes : r.pattern.Takes text w

/-- A line is cut into segments from left to right: a blank, what the first rule takes that
describes a front of the rest, or a character that belongs to nothing. -/
inductive Cut : List Char → List Segment → Prop
  | nil : Cut [] []
  | blank {c cs ss} : c ∈ blanks → Cut cs ss → Cut (c :: cs) (⟨.blank, [c]⟩ :: ss)
  | rule {r : Rule} {w cs ss} : (∀ c ∈ (w ++ cs).head?, c ∉ blanks) → r.TakesFirst (w ++ cs) w →
      Cut cs ss →
    Cut (w ++ cs) (⟨r.kind, w⟩ :: ss)
  | illegal {c cs ss} : c ∉ blanks → (∀ r ∈ Rule.order, r.pattern.Misses (c :: cs)) → Cut cs ss →
    Cut (c :: cs) (⟨.illegal, [c]⟩ :: ss)

variable {c : Char} {cs w : List Char} {s : Segment} {ss : List Segment} {r : Rule}

theorem Cut.flatMap_chars (h : Cut cs ss) : ss.flatMap (·.chars) = cs := by
  induction h with
  | nil => rfl
  | blank _ _ ih | rule _ _ _ ih | illegal _ _ _ ih => simp [ih]

theorem Rule.TakesFirst.mem_order (h : r.TakesFirst cs w) : r ∈ Rule.order := by
  obtain ⟨before, after, horder, -⟩ := h.first
  rw [horder]
  simp

/-! ### The first characters of what the rules describe -/

/-- The characters with which what a rule describes can begin. -/
def Rule.begins : Rule → Char → Bool
  | integer, c => c.isDigit
  | string, c => c == '"'
  | bool, c => c == 't' || c == 'f'
  | comment, c => c == '-' || c == '('
  | not, c => c == 'n' || c == 'N'
  | type, c => c.isUpper
  | word, c => c.isLower
  | mark m, c => m.toList.head? == some c

/-- The rules for marks come last, in the order of the marks. -/
theorem Rule.order_eq : Rule.order = [integer, string, bool, comment, not, type, word] ++
      marks.map mark := rfl

theorem Rule.mem_marks (h : Rule.mark m ∈ Rule.order) : m ∈ marks := by
  simpa [Rule.order_eq] using h

theorem Rule.toList_ne_nil (h : Rule.mark m ∈ Rule.order) : m.toList ≠ [] := by
  have hmarks : ∀ m ∈ marks, m.toList ≠ [] := by decide
  exact hmarks m (Rule.mem_marks h)

theorem Rule.exists_begins (hr : r ∈ Rule.order) (h : r.pattern.Fits w) :
    ∃ c u, w = c :: u ∧ r.begins c = true := by
  cases r with
  | integer | type | word =>
    obtain ⟨c, u, rfl, hc, -⟩ := fits_leading.mp h
    exact ⟨c, u, rfl, hc⟩
  | string =>
    obtain ⟨u, v, hu, -, rfl⟩ := Pattern.fits_seq.mp h
    obtain ⟨c, hc, rfl⟩ := Pattern.fits_one.mp hu
    exact ⟨c, v, rfl, by simpa [Rule.begins] using hc⟩
  | bool => rcases fits_bool.mp h with rfl | rfl <;> exact ⟨_, _, rfl, rfl⟩
  | comment =>
    rcases Pattern.fits_alt.mp h with h | h <;>
    · obtain ⟨u, v, hu, -, rfl⟩ := Pattern.fits_seq.mp h
      rw [Pattern.fits_text.mp hu]
      exact ⟨_, _, rfl, rfl⟩
  | not =>
    obtain ⟨a, b, c, rfl, ha, -⟩ := fits_not.mp h
    exact ⟨a, [b, c], rfl, by simpa [Rule.begins] using ha⟩
  | mark m =>
    rw [Pattern.fits_text.mp h]
    obtain ⟨c, u, hm⟩ := List.exists_cons_of_ne_nil (Rule.toList_ne_nil hr)
    exact ⟨c, u, hm, by simp [Rule.begins, hm]⟩

/-! ### What the lexer cuts -/

theorem isBlank_iff : isBlank c = true ↔ c ∈ blanks := by
  have hnat : ∀ d : Char, c.toNat = d.toNat ↔ c = d := fun d => Char.toNat_inj
  have hform : c.toNat = 12 ↔ c = '\x0c' := hnat '\x0c'
  have htab : c.toNat = 11 ↔ c = '\x0b' := hnat '\x0b'
  simp only [isBlank, blanks, Bool.or_eq_true, beq_iff_eq, hform, htab, List.mem_cons,
    List.not_mem_nil, or_false]
  tauto

/-- What the rules take from the front of a line, in their order. -/
def firstRule? (cs : List Char) : Option Segment :=
  Rule.order.findSome? fun r => (r.take cs).map (Segment.mk r.kind)

/-- The marks are tried together after the other rules, each one in its place. -/
theorem classes_findSome? (cs : List Char) :
    (classes.findSome? fun e => (e.2 cs).map (Segment.mk e.1)) = firstRule? cs := by
  have hclasses : classes =
      [Rule.integer, .string, .bool, .comment, .not, .type, .word].map
        (fun r => (r.kind, r.take)) ++
        [(.lexeme .mark, oneOf? marks)] := rfl
  have hmark : ∀ m : String, ((Rule.mark m).take cs).map (Segment.mk (Rule.mark m).kind) =
      (if m.toList.isPrefixOf cs then some m.toList else none).map
        (Segment.mk (.lexeme .mark)) := by
    intro m
    simp only [Rule.take, oneOf?, List.findSome?_singleton, Rule.kind]
  rw [firstRule?, hclasses, Rule.order_eq, List.findSome?_append, List.findSome?_append,
    List.findSome?_map, List.findSome?_map,
    List.findSome?_singleton]
  refine congrArg (Option.or _) (List.map_findSome?.trans ?_)
  exact congrArg (List.findSome? · marks) (funext fun m => (hmark m).symm)

theorem segment_eq (c : Char) (cs : List Char) :
    segment c cs =
      if isBlank c then ⟨.blank, [c]⟩ else (firstRule? (c :: cs)).getD ⟨.illegal, [c]⟩ := by
  rw [← classes_findSome?]
  unfold segment
  split
  · rfl
  · split <;> rename_i h
    · exact (congrArg (Option.getD · _) h).symm
    · exact (congrArg (Option.getD · _) h).symm

theorem firstRule?_eq_some (hcs : '\n' ∉ cs) :
    firstRule? cs = some s ↔ ∃ r : Rule, s.kind = r.kind ∧ r.TakesFirst cs s.chars := by
  rw [firstRule?, List.findSome?_eq_some_iff]
  constructor
  · rintro ⟨before, r, after, horder, htake, hbefore⟩
    obtain ⟨w, hw, rfl⟩ := Option.map_eq_some_iff.mp htake
    refine ⟨r, rfl, ⟨before, after, horder, fun q hq => ?_⟩, (r.reads hcs).takes w hw⟩
    exact (q.reads hcs).misses (Option.map_eq_none_iff.mp (hbefore q hq))
  · rintro ⟨r, hkind, ⟨before, after, horder, hbefore⟩, htakes⟩
    refine ⟨before, r, after, horder, ?_, fun q hq => ?_⟩
    · rw [(r.reads hcs).eq_some_iff.mpr htakes, ← hkind]
      rfl
    · rw [(q.reads hcs).eq_none_iff.mpr (hbefore q hq)]
      rfl

theorem firstRule?_eq_none (hcs : '\n' ∉ cs) :
    firstRule? cs = none ↔ ∀ r ∈ Rule.order, r.pattern.Misses cs := by
  rw [firstRule?, List.findSome?_eq_none_iff]
  exact forall₂_congr fun r _ => Option.map_eq_none_iff.trans (r.reads hcs).eq_none_iff

theorem segment_cut (hcs : '\n' ∉ c :: cs) :
    ∃ u rest, (segment c cs).chars = c :: u ∧
    cs = u ++ rest ∧ ∀ ss, Cut rest ss → Cut (c :: cs) (segment c cs :: ss) := by
  rw [segment_eq]
  by_cases hc : isBlank c = true
  · rw [if_pos hc]
    exact ⟨[], cs, rfl, rfl, fun ss => .blank (isBlank_iff.mp hc)⟩
  · rw [if_neg hc]
    rw [isBlank_iff] at hc
    cases hfirst : firstRule? (c :: cs) with
    | none => exact ⟨[], cs, rfl, rfl, fun ss => .illegal hc ((firstRule?_eq_none hcs).mp hfirst)⟩
    | some s =>
      obtain ⟨r, hkind, htakes⟩ := (firstRule?_eq_some hcs).mp hfirst
      obtain ⟨kind, w⟩ := s
      cases hkind
      obtain ⟨d, u, rfl, -⟩ := Rule.exists_begins htakes.mem_order htakes.takes.fits
      obtain ⟨rest, htext⟩ := htakes.takes.front
      cases htext
      exact ⟨u, rest, rfl, rfl, fun ss => .rule (w := c :: u) (by simpa using hc) htakes⟩

theorem segments_cut (hcs : '\n' ∉ cs) : Cut cs (segments cs) := by
  fun_induction segments cs with
  | case1 => exact .nil
  | case2 c cs s ih =>
    obtain ⟨u, rest, hchars, rfl, hcut⟩ := segment_cut hcs
    have hdrop : (u ++ rest).drop (s.chars.length - 1) = rest := by
      rw [hchars, List.length_cons, Nat.add_sub_cancel, List.drop_left]
    rw [hdrop] at ih ⊢
    exact hcut _ (ih fun h => hcs (by simp [h]))

theorem segments_cons (hseg : segment c cs = s) (hchars : s.chars = c :: w) (hcs : cs = w ++ rest) :
    segments (c :: cs) = s :: segments rest := by
  rw [segments, hseg, hchars, hcs, List.length_cons, Nat.add_sub_cancel, List.drop_left]

theorem Cut.segments_eq (h : Cut cs ss) (hcs : '\n' ∉ cs) : segments cs = ss := by
  induction h with
  | nil => rw [segments]
  | @blank c cs ss hc _ ih =>
    have hseg : segment c cs = ⟨.blank, [c]⟩ := by rw [segment_eq, if_pos (isBlank_iff.mpr hc)]
    rw [segments_cons hseg rfl rfl, ih fun h => hcs (.tail _ h)]
  | @rule r w cs ss hc htakes _ ih =>
    obtain ⟨c, u, rfl, -⟩ := Rule.exists_begins htakes.mem_order htakes.takes.fits
    rw [List.cons_append] at hc htakes hcs ⊢
    have hseg : segment c (u ++ cs) = ⟨r.kind, c :: u⟩ := by
      rw [segment_eq, if_neg fun h => hc c rfl (isBlank_iff.mp h),
        (firstRule?_eq_some (s := ⟨r.kind, c :: u⟩) hcs).mpr ⟨r, rfl, htakes⟩, Option.getD_some]
    rw [segments_cons hseg rfl rfl, ih fun h => hcs (.tail _ (List.mem_append_right _ h))]
  | @illegal c cs ss hc hmiss _ ih =>
    have hseg : segment c cs = ⟨.illegal, [c]⟩ := by
      rw [segment_eq, if_neg fun h => hc (isBlank_iff.mp h), (firstRule?_eq_none hcs).mpr hmiss,
        Option.getD_none]
    rw [segments_cons hseg rfl rfl, ih fun h => hcs (.tail _ h)]

/-! ### The lines of a text -/

theorem lines_eq_splitOn (cs : List Char) : lines cs = cs.splitOn '\n' := by
  induction cs with
  | nil => rfl
  | cons c cs ih =>
    rw [lines, List.splitOn_cons_eq_if_modifyHead, ih]
    split
    · rfl
    · obtain ⟨l, ls, hls⟩ := List.exists_cons_of_ne_nil (List.splitOn_ne_nil '\n' cs)
      rw [hls]
      rfl

theorem not_mem_of_mem_splitOn (h : l ∈ cs.splitOn '\n') : '\n' ∉ l := by
  induction cs generalizing l with
  | nil =>
    rw [List.splitOn_nil, List.mem_singleton] at h
    simp [h]
  | cons c cs ih =>
    obtain ⟨l', ls, hls⟩ := List.exists_cons_of_ne_nil (List.splitOn_ne_nil '\n' cs)
    rw [List.splitOn_cons_eq_if_modifyHead] at h
    split at h
    · rcases List.mem_cons.mp h with rfl | h
      · exact List.not_mem_nil
      · exact ih h
    · rename_i hc
      rw [hls] at h ih
      rcases List.mem_cons.mp h with rfl | h
      · intro hmem
        rcases List.mem_cons.mp hmem with rfl | hmem
        · exact hc (beq_self_eq_true _)
        · exact ih (.head _) hmem
      · exact ih (.tail _ h)

end AutoCool.Cool.Lexer
