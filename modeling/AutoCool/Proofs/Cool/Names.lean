import AutoCool.Proofs.Cool.Rereading

/-!
# Names

A text that is one name is read as one token, unless it begins like a truth value or the negation:
the rules for these are tried before those for names and do not look at what follows, so they cut
the name after its first letters. Keywords are told from names only when the whole word has been
taken, so a name that merely begins with one stays whole. `read_name` says exactly which names are
read as one token.
-/

namespace AutoCool.Cool.Lexer

variable {c : LexemeClass} {ch : Char} {cs w : List Char} {q r : Rule} {after : List Rule}
  {text : String}

/-! ### The first rule that applies -/

theorem Rule.misses_of_begins (cs : List Char) (hq : q ∈ Rule.order)
    (h : ∀ ch ∈ cs.head?, q.begins ch = false) : q.pattern.Misses cs := by
  intro v hv hfit
  obtain ⟨ch, u, rfl, hch⟩ := Rule.exists_begins hq hfit
  obtain ⟨rest, rfl⟩ := hv
  rw [h ch rfl] at hch
  cases hch

theorem Rule.takesFirst_whole (before : List Rule) (horder : Rule.order = before ++ r :: after)
    (hmiss : ∀ q ∈ before, q.pattern.Misses w) (hfit : r.pattern.Fits w) : r.TakesFirst w w :=
  ⟨⟨before, after, horder, hmiss⟩, List.prefix_rfl, hfit, fun _ hv _ => hv.length_le⟩

theorem Rule.exists_takesFirst (before : List Rule) (horder : Rule.order = before ++ r :: after)
    (hmiss : ∀ q ∈ before, q.pattern.Misses cs) (hcs : '\n' ∉ cs) (h : ¬ r.pattern.Misses cs) :
    ∃ w, r.TakesFirst cs w := by
  have hreads := r.reads hcs
  obtain ⟨w, hw⟩ := Option.ne_none_iff_exists'.mp fun hnone => h (hreads.misses hnone)
  exact ⟨w, ⟨before, after, horder, hmiss⟩, hreads.takes w hw⟩

theorem read_front (hkind : r.kind = .lexeme c) (hc : c ≠ .integer) (hbreak : '\n' ∉ text.toList)
    (h : r.TakesFirst text.toList w) : ∃ rest, text.toList = w ++ rest ∧
      read text = let others := readSegments 1 w.length (segments rest) {}
        { others with tokens := tokenOf 1 0 c w :: others.tokens } := by
  obtain ⟨rest, hrest⟩ := h.takes.front
  rw [← hrest] at h hbreak
  have hfirst : ∀ ch ∈ (w ++ rest).head?, ch ∉ blanks := by
    obtain ⟨ch, u, rfl, hch⟩ := Rule.exists_begins h.mem_order h.takes.fits
    rintro _ ⟨⟩
    exact Rule.not_mem_blanks h.mem_order hch
  have hcut : Cut (w ++ rest) (⟨r.kind, w⟩ :: segments rest) :=
    .rule hfirst h (segments_cut fun hmem => hbreak (List.mem_append_right _ hmem))
  have hshort : Segment.isTooLong ⟨r.kind, w⟩ = false := by simp [Segment.isTooLong, hkind, hc]
  refine ⟨rest, hrest.symm, ?_⟩
  rw [read, lines_eq_splitOn, ← hrest, List.splitOn_eq_singleton hbreak, readLines,
    hcut.segments_eq hbreak,
    readSegments_cons hshort, Nat.zero_add, hkind]
  simp only [readLines, tokenOf?, reported, Option.toList_some, List.singleton_append, reduceCtorEq,
    if_false,
    List.nil_append, List.append_nil]
  split
  · rfl
  · rename_i hlong
    rw [Bool.not_eq_true] at hlong
    rw [hlong]

theorem tokens?_whole (hkind : r.kind = .lexeme c) (hc : c ≠ .integer) (hbreak : '\n' ∉ text.toList)
    (h : r.TakesFirst text.toList text.toList) :
    (read text).tokens? = some [tokenOf 1 0 c text.toList, Token.ofEndMark grammar.endMark] := by
  obtain ⟨rest, hrest, hread⟩ := read_front hkind hc hbreak h
  obtain rfl : rest = [] := by simpa using hrest
  rw [segments, readSegments] at hread
  rw [hread]
  exact tokens?_of_not_tooLong rfl

/-! ### Names that are cut -/

/-- The only token of a text. -/
def soleToken (sign : Sign) (text : String) : Token :=
  { type := sign.symbol, lexeme := .text text, line := 1, column := 0 }

theorem tokens?_of_cut (hbreak : '\n' ∉ text.toList)
    (hmiss : ∀ q ∈ [Rule.integer, .string, .comment], q.pattern.Misses text.toList)
    (h : ¬ (Rule.bool.pattern.Misses text.toList ∧ Rule.not.pattern.Misses text.toList))
    (hsign : sign ≠ .carrier .bool ∧ sign ≠ .mark .not) :
    (read text).tokens? ≠ some [soleToken sign text, Token.ofEndMark grammar.endMark] := by
  obtain ⟨r, w, c, sign', d, hkind, hc, htakes, hmeans, hne⟩ :
      ∃ (r : Rule) (w : List Char) (c : LexemeClass) (sign' : Sign)
      (d : Datum), r.kind = .lexeme c ∧ c ≠ .integer ∧ r.TakesFirst text.toList w ∧
        Means c w sign' d ∧ sign ≠ sign' := by
    simp only [List.mem_cons, List.not_mem_nil, or_false, forall_eq_or_imp, forall_eq] at hmiss
    by_cases hbool : Rule.bool.pattern.Misses text.toList
    · obtain ⟨w, hw⟩ := Rule.exists_takesFirst (r := .not) [.integer, .string, .bool, .comment] rfl
        (by simpa [hbool] using hmiss) hbreak fun hnot => h ⟨hbool, hnot⟩
      exact ⟨.not, w, .not, _, _, rfl, by decide, hw, .not, hsign.2⟩
    · obtain ⟨w, hw⟩ := Rule.exists_takesFirst (r := .bool) [.integer, .string] rfl
        (by simpa using ⟨hmiss.1, hmiss.2.1⟩) hbreak hbool
      rcases fits_bool.mp hw.takes.fits with rfl | rfl
      · exact ⟨.bool, _, .bool, _, _, rfl, by decide, hw, .isTrue, hsign.1⟩
      · exact ⟨.bool, _, .bool, _, _, rfl, by decide, hw, .isFalse, hsign.1⟩
  obtain ⟨rest, -, hread⟩ := read_front hkind hc hbreak htakes
  intro htokens
  rw [hread, Lexed.tokens?] at htokens
  split at htokens
  · cases htokens
  · have htype := congrArg Token.type (List.cons.inj (Option.some.inj htokens)).1
    rw [tokenOf, soleToken, hmeans.type_eq] at htype
    exact hne (Sign.symbol_injective htype.symm)

/-! ### Names that stay whole -/

theorem isLower_iff : ch.isLower = true ↔ 97 ≤ ch.toNat ∧ ch.toNat ≤ 122 := by
  have heq : ch.isLower = decide (97 ≤ ch.val ∧ ch.val ≤ 122) := by
    rw [Bool.decide_and]
    rfl
  rw [heq, decide_eq_true_iff, UInt32.le_iff_toNat_le, UInt32.le_iff_toNat_le]
  rfl

theorem isUpper_iff : ch.isUpper = true ↔ 65 ≤ ch.toNat ∧ ch.toNat ≤ 90 := by
  have heq : ch.isUpper = decide (65 ≤ ch.val ∧ ch.val ≤ 90) := rfl
  rw [heq, decide_eq_true_iff, UInt32.le_iff_toNat_le, UInt32.le_iff_toNat_le]
  rfl

/-- A letter begins no number, string or comment, and a capital one no truth value. -/
theorem begins_letter (hq : q ∈ [Rule.integer, .string, .comment] ∧
      (ch.isLower = true ∨ ch.isUpper = true) ∨ q = .type ∧ ch.isLower = true ∨ q = .bool ∧
    ch.isUpper = true) : q ∈ Rule.order ∧ q.begins ch = false := by
  have hdigit : ch.isDigit = true ↔ 48 ≤ ch.toNat ∧ ch.toNat ≤ 57 := Char.isDigit_iff_toNat
  have heq : ∀ d : Char, ch = d ↔ ch.toNat = d.toNat := fun d => Char.toNat_inj.symm
  simp only [List.mem_cons, List.not_mem_nil, or_false, isLower_iff, isUpper_iff] at hq
  refine ⟨?_, Bool.eq_false_iff.mpr fun hbegins => ?_⟩
  · rcases hq with ⟨rfl | rfl | rfl, -⟩ | ⟨rfl, -⟩ | ⟨rfl, -⟩ <;> decide
  · rcases hq with ⟨rfl | rfl | rfl, h⟩ | ⟨rfl, h⟩ | ⟨rfl, h⟩
    all_goals
      simp only [Rule.begins, Bool.or_eq_true, beq_iff_eq, heq, hdigit, isUpper_iff,
        Char.reduceToNat] at hbegins
      omega

theorem misses_of_name {first : Char → Bool}
    (hfirst : ∀ ch, first ch = true → ch.isLower = true ∨ ch.isUpper = true)
    (hfit : (Rule.namePattern first).Fits cs) : ∃ ch, first ch = true ∧ cs.head? = some ch ∧
      '\n' ∉ cs ∧
      ∀ q ∈ [Rule.integer, .string, .comment], q.pattern.Misses cs := by
  obtain ⟨ch, u, rfl, hch, hu⟩ := fits_leading.mp hfit
  refine ⟨ch, hch, rfl, fun hmem => ?_, fun q hq => ?_⟩
  · rcases List.mem_cons.mp hmem with rfl | hmem
    · exact absurd (hfirst _ hch) (by decide)
    · exact absurd (hu _ hmem) (by decide)
  · obtain ⟨horder, hbegins⟩ := begins_letter (.inl ⟨hq, hfirst ch hch⟩)
    exact Rule.misses_of_begins _ horder (by simpa using hbegins)

/-- A name that begins with a small letter is read as one token of an identifier exactly when it is
no keyword in any spelling and does not begin like a truth value or the negation; one that begins
with a capital letter is read as one token of a type exactly when it does not begin like the
negation. -/
theorem read_name (text : String) :
    (Rule.word.pattern.Fits text.toList →
      ((read text).tokens? = some [soleToken (.carrier .id) text, Token.ofEndMark grammar.endMark] ↔
        text.toLower ∉ keywords ∧ Rule.bool.pattern.Misses text.toList ∧
          Rule.not.pattern.Misses text.toList)) ∧
    (Rule.type.pattern.Fits text.toList →
      ((read text).tokens? = some [soleToken (.carrier .type) text,
        Token.ofEndMark grammar.endMark] ↔
        Rule.not.pattern.Misses text.toList)) := by
  constructor
  · intro hfit
    obtain ⟨ch, hch, hhead, hbreak, hmiss⟩ := misses_of_name (fun _ => .inl) hfit
    by_cases hcut : Rule.bool.pattern.Misses text.toList ∧ Rule.not.pattern.Misses text.toList
    · simp only [List.mem_cons, List.not_mem_nil, or_false, forall_eq_or_imp, forall_eq] at hmiss
      obtain ⟨horder, hbegins⟩ := begins_letter (.inr (.inl ⟨rfl, hch⟩))
      have htype := Rule.misses_of_begins text.toList horder (by simpa [hhead] using hbegins)
      have htakes := Rule.takesFirst_whole [.integer, .string, .bool, .comment, .not, .type] rfl
        (by simp [hmiss, hcut, htype]) hfit
      obtain ⟨sign, d, hmeans⟩ := exists_means htakes.mem_order rfl hfit hbreak
      rw [tokens?_whole rfl (by decide) hbreak htakes, tokenOf, hmeans.type_eq, hmeans.value_eq]
      cases hmeans with
      | keyword hm hname =>
        rw [String.ofList_toList] at hname
        refine iff_of_false (fun h => ?_) fun h =>
          h.1 (keywords_eq ▸ hname ▸ List.mem_map_of_mem hm)
        have htype := congrArg Token.type (List.cons.inj (Option.some.inj h)).1
        cases Sign.symbol_injective htype
      | name hnone =>
        rw [String.ofList_toList] at hnone ⊢
        refine iff_of_true rfl ⟨fun hmem => ?_, hcut⟩
        obtain ⟨m, hm, hname⟩ := List.mem_map.mp (keywords_eq ▸ hmem)
        exact hnone m hm hname
    · exact iff_of_false (tokens?_of_cut hbreak hmiss hcut (by simp)) fun h => hcut h.2
  · intro hfit
    obtain ⟨ch, hch, hhead, hbreak, hmiss⟩ := misses_of_name (fun _ => .inr) hfit
    by_cases hnot : Rule.not.pattern.Misses text.toList
    · simp only [List.mem_cons, List.not_mem_nil, or_false, forall_eq_or_imp, forall_eq] at hmiss
      obtain ⟨horder, hbegins⟩ := begins_letter (.inr (.inr ⟨rfl, hch⟩))
      have hbool := Rule.misses_of_begins text.toList horder (by simpa [hhead] using hbegins)
      have htakes := Rule.takesFirst_whole [.integer, .string, .bool, .comment, .not] rfl
        (by simp [hmiss, hbool, hnot]) hfit
      have hmeans : Means .type text.toList (.carrier .type) (.text (String.ofList text.toList)) :=
        .type
      rw [tokens?_whole rfl (by decide) hbreak htakes, tokenOf, hmeans.type_eq, hmeans.value_eq,
        String.ofList_toList]
      exact iff_of_true rfl hnot
    · exact iff_of_false (tokens?_of_cut hbreak hmiss (fun h => hnot h.2) (by simp)) hnot

/-- A name that begins with a keyword and holds another one stays whole. -/
theorem read_name_classic : Rule.word.pattern.Fits "classicIn_2".toList ∧
    (read "classicIn_2").tokens? = some
      [soleToken (.carrier .id) "classicIn_2", Token.ofEndMark grammar.endMark] := by
  have hfit : Rule.word.pattern.Fits "classicIn_2".toList :=
    fits_leading.mpr ⟨'c', "lassicIn_2".toList, rfl, rfl, List.all_eq_true.mp rfl⟩
  refine ⟨hfit, ((read_name "classicIn_2").1 hfit).mpr
    ⟨by decide +kernel, fun v hv hfit => ?_, fun v hv hfit => ?_⟩⟩
  · rcases fits_bool.mp hfit with rfl | rfl <;> exact absurd hv (by decide)
  · obtain ⟨a, b, c, rfl, rfl | rfl, -⟩ :=
      fits_not.mp hfit <;> exact absurd (List.cons_prefix_cons.mp hv).1 (by decide)

/-- A name that begins like the negation is cut, although it is none of the words that are
reserved. -/
theorem read_name_nothing :
    Rule.word.pattern.Fits "nothing".toList ∧
    "nothing".toLower ∉ keywords ++ ["true", "false", "not"] ∧
    (read "nothing").tokens.map (·.text) = ["not", "hing"] :=
  ⟨fits_leading.mpr ⟨'n', "othing".toList, rfl, rfl,
    List.all_eq_true.mp rfl⟩, by decide +kernel, by decide +kernel⟩

end AutoCool.Cool.Lexer
