import AutoCool.Proofs.Cool.Lexemes

/-!
# Writing tokens and reading them again

The tokens of a text, written on one line with blanks between them, are read as the same tokens
(`reread_same`). A lexeme that a rule took somewhere is taken by the same rule between blanks
(`Alone`): what a rule describes either has no blank inside or is a string or a comment, which begin
like no other lexeme but an opening parenthesis.
-/

namespace AutoCool.Cool

namespace Lexer

variable {c : LexemeClass} {cs u v w rest : List Char} {s : Segment} {ss : List Segment}
  {q r : Rule} {t : Token}

/-! ### Lexemes between blanks -/

theorem Rule.eq_of_blank_mem (hq : q ∈ Rule.order) (hfit : q.pattern.Fits v) (hmem : ' ' ∈ v) :
    q = .string ∨ q = .comment := by
  have hclass : ∀ {p p' : Char → Bool}, (Pattern.seq (.one p) (.many (.one p'))).Fits v →
      p ' ' = true ∨ p' ' ' = true := by
    intro p p' hfit
    obtain ⟨c, u, rfl, hc, hu⟩ := fits_leading.mp hfit
    rcases List.mem_cons.mp hmem with rfl | hmem
    · exact .inl hc
    · exact .inr (hu _ hmem)
  cases q with
  | string => exact .inl rfl
  | comment => exact .inr rfl
  | integer | type | word => exact absurd (hclass hfit) (by decide)
  | bool => rcases fits_bool.mp hfit with rfl | rfl <;> simp at hmem
  | not =>
    obtain ⟨a, b, c, rfl, ha, hb, hc⟩ := fits_not.mp hfit
    rcases ha with rfl | rfl <;> rcases hb with rfl | rfl <;> rcases hc with rfl | rfl <;>
      simp at hmem
  | mark m =>
    have hmarks : ∀ m ∈ marks, ' ' ∉ m.toList := by decide
    rw [Pattern.fits_text.mp hfit] at hmem
    exact absurd hmem (hmarks m (Rule.mem_marks hq))

/-- In a line where a blank follows a lexeme, what a rule describes ends with the lexeme at the
latest. -/
theorem front_of_fits (hr : r ∈ Rule.order) (hcomment : r ≠ .comment) (hw : r.pattern.Fits w)
    (hbreak : '\n' ∉ w ++ rest) (hrest : ∀ c ∈ rest.head?, c = ' ') (hq : q ∈ Rule.order)
    (hv : v <+: w ++ rest) (hfit : q.pattern.Fits v) : v <+: w := by
  rcases List.prefix_or_prefix_of_prefix hv (List.prefix_append w rest) with h | ⟨tail, rfl⟩
  · exact h
  cases tail with
  | nil => simp
  | cons b tail =>
    obtain rfl : b = ' ' := by
      obtain ⟨more, rfl⟩ := (List.prefix_append_right_inj w).mp hv
      exact hrest b rfl
    exfalso
    obtain ⟨c, u, rfl, hc⟩ := Rule.exists_begins hr hw
    rcases Rule.eq_of_blank_mem hq hfit (by simp) with rfl | rfl
    · -- A string begins with a quote, and so does the lexeme: it is a string, and the same quote
      -- ends it.
      obtain ⟨x, hx, -⟩ := (fits_string fun h => hbreak (hv.subset h)).mp hfit
      obtain rfl := (List.cons.inj hx).1
      have hquote : ∀ r ∈ Rule.order, r.begins '"' = true → r = .string := by decide
      obtain rfl := hquote r hr hc
      have htwo := (string?_of_fits hbreak hv hfit).symm.trans
          (string?_of_fits hbreak (List.prefix_append _ _) hw)
      simpa using congrArg List.length (Option.some.inj htwo)
    · -- A comment begins with a parenthesis and a star, but a blank follows the parenthesis.
      obtain ⟨x, hx, -⟩ := (fits_comment fun h => hbreak (hv.subset h)).mp hfit
      obtain ⟨rfl, hu⟩ := List.cons.inj hx
      have hparen : ∀ r ∈ Rule.order, r.begins '(' = true → r = .comment ∨
          r = .mark "(" := by decide
      obtain rfl := (hparen r hr hc).resolve_left hcomment
      cases Pattern.fits_text.mp hw
      simp at hu

/-- The rule takes the lexeme wherever a blank or the end of the line follows it. -/
structure Alone (r : Rule) (w : List Char) : Prop where
  noBreak : '\n' ∉ w
  takesFirst : ∀ rest, '\n' ∉ rest → (∀ c ∈ rest.head?, c = ' ') → r.TakesFirst (w ++ rest) w

/-- A lexeme that a rule takes in some line is one that it takes between blanks. -/
theorem Rule.TakesFirst.alone (h : r.TakesFirst (w ++ cs) w) (hbreak : '\n' ∉ w ++ cs)
    (hcomment : r ≠ .comment) : Alone r w := by
  have hw : '\n' ∉ w := fun h => hbreak (List.mem_append_left _ h)
  refine ⟨hw, fun rest hrest hblank => ?_⟩
  have hfront : ∀ q ∈ Rule.order, ∀ v, v <+: w ++ rest → q.pattern.Fits v → v <+: w := fun q hq v =>
    front_of_fits h.mem_order hcomment h.takes.fits (by simp [hw, hrest]) hblank hq
  obtain ⟨before, after, horder, hmiss⟩ := h.first
  refine ⟨⟨before, after, horder, fun q hq v hv hfit => ?_⟩, List.prefix_append w rest,
    h.takes.fits, fun v hv hfit => ?_⟩
  · have hvw := hfront q (by simp [horder, hq]) v hv hfit
    exact hmiss q hq v (hvw.trans (List.prefix_append w cs)) hfit
  · exact (hfront r h.mem_order v hv hfit).length_le

theorem alone_integer (hne : w ≠ []) (hw : ∀ c ∈ w, c.isDigit = true) : Alone .integer w := by
  have hfits : Rule.integer.pattern.Fits w := by
    obtain ⟨c, u, rfl⟩ := List.exists_cons_of_ne_nil hne
    exact fits_leading.mpr ⟨c, u, rfl, hw c (by simp), fun d hd => hw d (by simp [hd])⟩
  have hbreak : '\n' ∉ w ++ [] := by
    rw [List.append_nil]
    exact fun h => absurd (hw _ h) (by decide)
  have htakes : Rule.integer.TakesFirst (w ++ []) w := by
    refine ⟨⟨[], _, rfl, by simp⟩, List.prefix_append w [], hfits, fun v hv _ => ?_⟩
    simpa using hv.length_le
  exact htakes.alone hbreak (by simp)

theorem Rule.not_mem_blanks {c : Char} (hr : r ∈ Rule.order) (hc : r.begins c = true) :
    c ∉ blanks := by
  have hblanks : ∀ r ∈ Rule.order, blanks.all (fun c => !r.begins c) = true := by decide
  intro hmem
  have hnot := List.all_eq_true.mp (hblanks r hr) c hmem
  rw [hc] at hnot
  cases hnot

theorem Alone.cut (h : Alone r w) (hbreak : '\n' ∉ rest) (hblank : ∀ c ∈ rest.head?, c = ' ')
    (hcut : Cut rest ss) : Cut (w ++ rest) (⟨r.kind, w⟩ :: ss) := by
  have htakes := h.takesFirst rest hbreak hblank
  refine .rule ?_ htakes hcut
  obtain ⟨c, u, hw, hc⟩ := Rule.exists_begins htakes.mem_order htakes.takes.fits
  rw [hw, List.cons_append, List.head?_cons]
  intro d hd
  cases hd
  exact Rule.not_mem_blanks htakes.mem_order hc

theorem cut_intercalate (h : ∀ s ∈ ss, ∃ r : Rule, s.kind = r.kind ∧ Alone r s.chars) :
    '\n' ∉ [' '].intercalate (ss.map (·.chars)) ∧
      Cut ([' '].intercalate (ss.map (·.chars))) (ss.intersperse ⟨.blank, [' ']⟩) := by
  induction ss with
  | nil => exact ⟨by simp, .nil⟩
  | cons s ss ih =>
    rw [List.forall_mem_cons] at h
    obtain ⟨hbreak, hcut⟩ := ih h.2
    obtain ⟨r, hkind, hr⟩ := h.1
    obtain ⟨kind, w⟩ := s
    obtain rfl : kind = r.kind := hkind
    cases ss with
    | nil => exact ⟨by simpa using hr.noBreak, by simpa using hr.cut (by simp) (by simp) .nil⟩
    | cons s' ss =>
      rw [List.map_cons, List.map_cons, List.intercalate_cons_cons, List.append_assoc,
        List.singleton_append,
        List.intersperse_cons_cons]
      have hblank : ' ' ∈ blanks := by decide
      refine ⟨?_, hr.cut ?_ (by simp) (.blank hblank hcut)⟩
      · simpa [hr.noBreak] using hbreak
      · simpa using hbreak

/-! ### What the token of a segment holds -/

/-- The token has the terminal and the value of the segment. -/
def Gives (s : Segment) (t : Token) : Prop :=
  ∃ c, s.kind = .lexeme c ∧ t.type = symbol (terminalName c s.chars) ∧
    t.lexeme = lexemeValue c s.chars

theorem Gives.unique (h : Gives s t) (h' : Gives s t') :
    t'.type = t.type ∧ t'.lexeme = t.lexeme := by
  obtain ⟨c, hkind, htype, hlexeme⟩ := h
  obtain ⟨c', hkind', htype', hlexeme'⟩ := h'
  cases hkind.symm.trans hkind'
  exact ⟨htype'.trans htype.symm, hlexeme'.trans hlexeme.symm⟩

theorem Occurrence.ReadAs.gives {o : Occurrence} (h : o.ReadAs t) : Gives o.segment t := by
  obtain ⟨c, sign, hkind, hmeans, htype⟩ := h.means
  exact ⟨c, hkind, htype.trans hmeans.type_eq.symm, hmeans.value_eq.symm⟩

theorem map_segment_occurrencesFrom (line : Nat) (before ss : List Segment) :
    (occurrencesFrom line before ss).map (·.segment) = ss := by
  induction ss generalizing before with
  | nil => rfl
  | cons s ss ih => rw [occurrencesFrom, List.map_cons, ih]

theorem map_segment_lexemes (line : Nat) (cuts : List (List Segment)) :
    (lexemes line cuts).map (·.segment) = cuts.flatten.filter (·.isLexeme) := by
  have hall : (occurrences line cuts).map (·.segment) = cuts.flatten := by
    rw [occurrences, List.map_flatMap]
    simp only [map_segment_occurrencesFrom]
    rw [List.flatMap_def]
    exact congrArg List.flatten (List.zipIdx_map_fst line cuts)
  rw [← hall, List.filter_map]
  rfl

theorem read_gives {text : String} (h : ∀ s ∈ (cuts text).flatten, s.isTooLong = false) :
    (read text).tooLong = false ∧ (read text).illegal = (cuts text).flatten.flatMap reported ∧
      List.Forall₂ Gives ((cuts text).flatten.filter (·.isLexeme)) (read text).tokens := by
  obtain ⟨ts, hts, hread⟩ := read_ok h
  rw [hread, ← map_segment_lexemes 1, List.forall₂_map_left_iff]
  exact ⟨rfl, rfl, hts.imp fun o t h => h.gives⟩

/-! ### Writing tokens -/

/-- A token as it is written: a number in decimal, a truth value by its name, a string in quotes,
anything else as it is. -/
def written (t : Token) : String :=
  match t.lexeme with
  | .int n => toString n
  | .bool b => if b then "true" else "false"
  | .text x => if t.type = (Sign.carrier .string).symbol then "\"" ++ x ++ "\"" else x
  | d => d.display

/-- Tokens on one line, with a blank between any two. -/
def writeLine (ts : List Token) : String := " ".intercalate (ts.map written)

/-- The segment as which a token is written. -/
structure WrittenAs (t : Token) (s : Segment) : Prop where
  chars : (written t).toList = s.chars
  gives : Gives s t
  short : s.isTooLong = false
  alone : ∃ r : Rule, s.kind = r.kind ∧ Alone r s.chars

theorem ofDigitChars_lt (hw : ∀ c ∈ w, c.isDigit = true) (n : Nat) :
    Nat.ofDigitChars 10 w n < (n + 1) * 10 ^ w.length := by
  induction w generalizing n with
  | nil => simp
  | cons c w ih =>
    rw [List.forall_mem_cons] at hw
    have hdigit : c.toNat - '0'.toNat ≤ 9 := Nat.sub_le_of_le_add (Char.isDigit_iff_toNat.mp hw.1).2
    rw [Nat.ofDigitChars_cons, List.length_cons, Nat.pow_succ]
    refine Nat.lt_of_lt_of_le (ih hw.2 _) ?_
    rw [← Nat.mul_assoc, Nat.mul_right_comm]
    exact Nat.mul_le_mul_right _ (by omega)

theorem exists_writtenAs_integer (hw : ∀ c ∈ w, c.isDigit = true)
    (hlong : w.length ≤ Text.maxDigits) (ht : Gives ⟨.lexeme .integer, w⟩ t) :
    ∃ s, WrittenAs t s := by
  obtain ⟨c, hkind, htype, hlexeme⟩ := ht
  cases hkind
  rw [lexemeValue, number_eq] at hlexeme
  generalize hn : Nat.ofDigitChars 10 w 0 = n at hlexeme
  have hbound : n < 10 ^ Text.maxDigits := by
    have hlt := ofDigitChars_lt hw 0
    rw [hn, Nat.zero_add, Nat.one_mul] at hlt
    exact Nat.lt_of_lt_of_le hlt (Nat.pow_le_pow_right (by decide) hlong)
  refine ⟨⟨.lexeme .integer, Nat.toDigits 10 n⟩, ?_, ⟨.integer, rfl, htype, ?_⟩, ?_, .integer,
    rfl, ?_⟩
  · have hwritten : written t = n.repr := by
      rw [written, hlexeme]
      rfl
    rw [hwritten, Nat.toList_repr]
  · rw [lexemeValue, number_eq, Nat.ofDigitChars_toDigits (by decide) (by decide)]
    exact hlexeme
  · have hlen := (Nat.length_toDigits_le_iff (b := 10) (by decide) (by decide)).mpr hbound
    simpa [Segment.isTooLong] using hlen
  · exact alone_integer Nat.toDigits_ne_nil fun c hc => Nat.isDigit_of_mem_toDigits (by decide)
      (by decide) hc

theorem Means.toList_written (h : Means c w sign d) (hc : c ≠ .integer)
    (htype : t.type = sign.symbol) (hlexeme : t.lexeme = d) : (written t).toList = w := by
  have hplain : ∀ x, t.lexeme = .text x → sign ≠ .carrier .string → written t = x := by
    intro x hx hsign
    have hne : t.type ≠ (Sign.carrier .string).symbol :=
      fun h => hsign (Sign.symbol_injective (htype.symm.trans h))
    rw [written, hx]
    exact if_neg hne
  cases h with
  | integer => exact absurd rfl hc
  | string =>
    rw [written, hlexeme, htype]
    simp
  | isTrue | isFalse =>
    rw [written, hlexeme]
    simp
  | mark => rw [hplain _ hlexeme (by simp)]
  | not | type | keyword | name => rw [hplain _ hlexeme (by simp), String.toList_ofList]

theorem exists_writtenAs (hformed : Formed s) (hlong : s.isTooLong = false) (ht : Gives s t) :
    ∃ s', WrittenAs t s' := by
  obtain ⟨kind, w⟩ := s
  obtain ⟨c, hkind, htype, hlexeme⟩ := ht
  cases hkind
  obtain ⟨r, rest, hkind, htakes, hbreak⟩ := hformed.lexeme rfl
  have hw : '\n' ∉ w := fun h => hbreak (List.mem_append_left _ h)
  by_cases hc : c = .integer
  · subst hc
    obtain rfl : r = .integer := by
      cases r with
      | integer => rfl
      | _ => cases hkind
    obtain ⟨d, u, rfl, hd, hu⟩ := fits_leading.mp htakes.takes.fits
    refine exists_writtenAs_integer (List.forall_mem_cons.mpr ⟨hd, hu⟩) ?_
      ⟨.integer, rfl, htype, hlexeme⟩
    simpa [Segment.isTooLong] using hlong
  · obtain ⟨sign, d, hmeans⟩ := exists_means htakes.mem_order hkind.symm htakes.takes.fits hw
    refine ⟨⟨.lexeme c, w⟩, ?_, ⟨c, rfl, htype, hlexeme⟩, hlong, r, hkind, htakes.alone hbreak ?_⟩
    · exact hmeans.toList_written hc (htype.trans hmeans.type_eq) (hlexeme.trans hmeans.value_eq)
    · rintro rfl
      cases hkind

theorem mem_of_mem_intersperse (h : s ∈ ss.intersperse b) : s = b ∨ s ∈ ss := by
  induction ss with
  | nil => cases h
  | cons s' ss ih =>
    cases ss with
    | nil => exact .inr h
    | cons s'' ss =>
      rw [List.intersperse_cons_cons] at h
      rcases List.mem_cons.mp h with rfl | h
      · exact .inr (.head _)
      rcases List.mem_cons.mp h with rfl | h
      · exact .inl rfl
      · exact (ih h).imp_right (.tail s')

theorem filter_intersperse (hb : p b = false) (hss : ∀ s ∈ ss, p s = true) :
    (ss.intersperse b).filter p = ss := by
  induction ss with
  | nil => rfl
  | cons s ss ih =>
    rw [List.forall_mem_cons] at hss
    cases ss with
    | nil => exact List.filter_cons_of_pos hss.1
    | cons s' ss =>
      rw [List.intersperse_cons_cons, List.filter_cons_of_pos hss.1,
        List.filter_cons_of_neg (by simp [hb]), ih hss.2]

theorem Gives.isLexeme (h : Gives s t) : s.isLexeme = true := by
  obtain ⟨c, hkind, -⟩ := h
  rw [Segment.isLexeme, hkind]

theorem reported_of_isLexeme (h : s.isLexeme = true) : reported s = [] := by
  rw [reported, if_neg]
  intro hkind
  rw [Segment.isLexeme, hkind] at h
  cases h

theorem read_writeLine (h : ∀ t ∈ ts, ∃ s, WrittenAs t s) :
    (read (writeLine ts)).tooLong = false ∧ (read (writeLine ts)).illegal = [] ∧
      List.Forall₂ (fun t t' => t'.type = t.type ∧ t'.lexeme = t.lexeme) ts
        (read (writeLine ts)).tokens := by
  have : Nonempty Segment := ⟨⟨.blank, []⟩⟩
  choose! f hf using h
  have hchars : (writeLine ts).toList = [' '].intercalate ((ts.map f).map (·.chars)) := by
    rw [writeLine, String.toList_intercalate, List.map_map, List.map_map]
    exact congrArg _ (List.map_congr_left fun t ht => (hf t ht).chars)
  obtain ⟨hbreak, hcut⟩ := cut_intercalate (List.forall_mem_map.mpr fun t ht => (hf t ht).alone)
  have hcuts : (cuts (writeLine ts)).flatten = (ts.map f).intersperse ⟨.blank, [' ']⟩ := by
    rw [cuts, hchars, List.splitOn_eq_singleton hbreak, List.map_singleton, hcut.segments_eq hbreak,
      List.flatten_singleton]
  have hlexeme : ∀ s ∈ ts.map f, s.isLexeme = true :=
    List.forall_mem_map.mpr fun t ht => (hf t ht).gives.isLexeme
  have hshort : ∀ s ∈ (cuts (writeLine ts)).flatten, s.isTooLong = false := by
    rw [hcuts]
    intro s hs
    rcases mem_of_mem_intersperse hs with rfl | hs
    · rfl
    · obtain ⟨t, ht, rfl⟩ := List.mem_map.mp hs
      exact (hf t ht).short
  obtain ⟨hlong, hillegal, hgives⟩ := read_gives hshort
  rw [hcuts] at hillegal hgives
  refine ⟨hlong, hillegal.trans (List.flatMap_eq_nil_iff.mpr fun s hs => ?_), ?_⟩
  · rcases mem_of_mem_intersperse hs with rfl | hs
    · rfl
    · exact reported_of_isLexeme (hlexeme s hs)
  · rw [filter_intersperse rfl hlexeme, List.forall₂_map_left_iff] at hgives
    refine ((List.forall₂_and_left _ _).mpr ⟨hf, hgives⟩).imp ?_
    intro t t' h
    exact h.1.gives.unique h.2

/-- The tokens of a text, written on a line, are read as the same tokens at other places, and
nothing is reported. -/
theorem reread_same (text : String) {ts : List Token}
    (h : (read text).tokens? = some (ts ++ [Token.ofEndMark grammar.endMark])) :
    ∃ ts', (read (writeLine ts)).tokens? = some (ts' ++ [Token.ofEndMark grammar.endMark]) ∧
      List.Forall₂ (fun t t' => t'.type = t.type ∧ t'.lexeme = t.lexeme) ts ts' ∧
        (read (writeLine ts)).report = "" := by
  have hshort : ∀ s ∈ (cuts text).flatten, s.isTooLong = false := by
    intro s hs
    rw [Bool.eq_false_iff]
    intro hlong
    rw [tokens?_of_tooLong (read_tooLong ⟨s, hs, hlong⟩)] at h
    cases h
  obtain ⟨hlong, -, hgives⟩ := read_gives hshort
  rw [tokens?_of_not_tooLong hlong] at h
  obtain rfl : (read text).tokens = ts := List.append_cancel_right (Option.some.inj h)
  have hwritten : ∀ t ∈ (read text).tokens, ∃ s, WrittenAs t s := by
    intro t ht
    obtain ⟨s, hs, hst⟩ := exists_of_forall₂ (List.Forall₂.flip (R := flip Gives) hgives) ht
    have hs := List.mem_of_mem_filter hs
    exact exists_writtenAs (cuts_formed text s hs) (hshort s hs) hst
  obtain ⟨hlong', hillegal, hsame⟩ := read_writeLine hwritten
  refine ⟨_, tokens?_of_not_tooLong hlong', hsame, ?_⟩
  rw [Lexed.report, hillegal]
  rfl

/-- A text whose lexemes stand close together: a negation cut off a name, a comment, an opening that
is no comment, a string with such an opening inside, a character that belongs to nothing and a
number with zeros in front. -/
def crowded : String := "nota007(*c*)(*\n\"a (*\"<-X#007"

theorem reread_same_crowded : (read crowded).tooLong = false ∧
    (read crowded).tokens.map (·.text) = ["not", "a007", "(", "*", "a (*", "<-", "X", "7"] ∧
    ∃ ts', (read (writeLine (read crowded).tokens)).tokens? = some
      (ts' ++ [Token.ofEndMark grammar.endMark]) ∧
      List.Forall₂ (fun t t' => t'.type = t.type ∧ t'.lexeme = t.lexeme) (read crowded).tokens ts' ∧
      (read (writeLine (read crowded).tokens)).report = "" := by
  have hlong : (read crowded).tooLong = false := by decide +kernel
  refine ⟨hlong, by decide +kernel, ?_⟩
  exact reread_same crowded (tokens?_of_not_tooLong hlong)

end Lexer

end AutoCool.Cool
