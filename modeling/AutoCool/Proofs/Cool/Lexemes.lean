import AutoCool.Proofs.Cool.Cutting

/-!
# The tokens of a text

What a lexeme stands for is said by `Means`, and where it stands in a text by `Occurrence`. The
tokens of a text are its lexemes in their order, each with its place and what it stands for, and the
characters that are reported are the segments that belong to nothing (`read_covers`). Only a number
with too many digits keeps a text from being read.
-/

namespace AutoCool.Cool

/-- The keywords that are words of letters. The negation is not one of them: it has a rule of its
own. -/
def Mark.keywords : List Mark :=
  [.kwClass, .kwInherits, .kwIf, .kwThen, .kwElse, .kwFi, .kwWhile, .kwLoop, .kwPool, .kwLet, .kwIn,
    .kwCase, .kwOf, .kwEsac,
    .new, .isVoid]

namespace Segment

def isLexeme (s : Segment) : Bool :=
  match s.kind with
  | .lexeme _ => true
  | _ => false

/-- The segment is a number with more digits than a number may have. -/
def isTooLong (s : Segment) : Bool := s.kind == .lexeme .integer && decide
    (Text.maxDigits < s.chars.length)

end Segment

namespace Lexer

variable {c : LexemeClass} {w : List Char} {s : Segment} {ss before : List Segment} {r : Rule}

/-! ### What lexemes stand for -/

/-- What a lexeme of a class stands for: a terminal, and what its token carries. -/
inductive Means : LexemeClass → List Char → Sign → Datum → Prop
  | integer {digits} : Means .integer digits (.carrier .integer)
      (.int (Nat.ofDigitChars 10 digits 0))
  | string {cs} : Means .string ('"' :: (cs ++ ['"'])) (.carrier .string) (.text (String.ofList cs))
  | isTrue : Means .bool ['t', 'r', 'u', 'e'] (.carrier .bool) (.bool true)
  | isFalse : Means .bool ['f', 'a', 'l', 's', 'e'] (.carrier .bool) (.bool false)
  | not {cs} : Means .not cs (.mark .not) (.text (String.ofList cs))
  | type {cs} : Means .type cs (.carrier .type) (.text (String.ofList cs))
  | keyword {cs m} : m ∈ Mark.keywords → m.name = (String.ofList cs).toLower →
    Means .word cs (.mark m) (.text (String.ofList cs))
  | name {cs} : (∀ m ∈ Mark.keywords, m.name ≠ (String.ofList cs).toLower) →
    Means .word cs (.carrier .id) (.text (String.ofList cs))
  | mark {m : Mark} : Means .mark m.name.toList (.mark m) (.text m.name)

theorem number_eq (digits : List Char) : number digits = Nat.ofDigitChars 10 digits 0 := by
  simp only [number, Nat.ofDigitChars, Nat.mul_comm]

theorem keywords_eq : keywords = Mark.keywords.map Mark.name := rfl

namespace Means

variable {sign : Sign} {d : Datum}

theorem value_eq (h : Means c w sign d) : lexemeValue c w = d := by
  cases h with
  | integer => rw [lexemeValue, number_eq]
  | string => rw [lexemeValue, List.drop_one, List.tail_cons, List.dropLast_concat]
  | mark => simp [lexemeValue]
  | _ => rfl

theorem name_eq (h : Means c w sign d) : terminalName c w = sign.name := by
  cases h with
  | keyword hm hname =>
    have hmem : (String.ofList w).toLower ∈ keywords := keywords_eq ▸ hname ▸ List.mem_map_of_mem hm
    rw [terminalName, if_pos (List.contains_iff_mem.mpr hmem)]
    exact hname.symm
  | name hnone =>
    have hmem : (String.ofList w).toLower ∉ keywords := by
      rw [keywords_eq]
      intro hmem
      obtain ⟨m, hm, hname⟩ := List.mem_map.mp hmem
      exact hnone m hm hname
    rw [terminalName, if_neg fun h => hmem (List.contains_iff_mem.mp h)]
    rfl
  | mark =>
    rw [terminalName, String.ofList_toList]
    rfl
  | _ => rfl

theorem type_eq (h : Means c w sign d) : symbol (terminalName c w) = sign.symbol := by
  rw [h.name_eq, symbol_name]

theorem kind_eq (h : Means c w sign d) : sign.kind = .terminal := by cases h <;> rfl

end Means

theorem exists_means (hr : r ∈ Rule.order) (hkind : r.kind = .lexeme c) (hfit : r.pattern.Fits w)
    (hw : '\n' ∉ w) : ∃ sign d, Means c w sign d := by
  cases r with
  | comment => cases hkind
  | integer =>
    cases hkind
    exact ⟨_, _, .integer⟩
  | string =>
    cases hkind
    obtain ⟨u, rfl, -⟩ := (fits_string hw).mp hfit
    exact ⟨_, _, .string⟩
  | bool =>
    cases hkind
    rcases fits_bool.mp hfit with rfl | rfl
    · exact ⟨_, _, .isTrue⟩
    · exact ⟨_, _, .isFalse⟩
  | not =>
    cases hkind
    exact ⟨_, _, .not⟩
  | type =>
    cases hkind
    exact ⟨_, _, .type⟩
  | word =>
    cases hkind
    by_cases h : ∃ m ∈ Mark.keywords, m.name = (String.ofList w).toLower
    · obtain ⟨m, hm, hname⟩ := h
      exact ⟨_, _, .keyword hm hname⟩
    · exact ⟨_, _, .name fun m hm hname => h ⟨m, hm, hname⟩⟩
  | mark m =>
    cases hkind
    have hmarks : ∀ m ∈ marks, m ∈ Mark.all.map Mark.name := by decide +kernel
    obtain ⟨m, -, rfl⟩ := List.mem_map.mp (hmarks m (Rule.mem_marks hr))
    rw [Pattern.fits_text.mp hfit]
    exact ⟨_, _, .mark⟩

/-! ### The segments of a cut -/

/-- What a segment has to be: a lexeme is what the first rule took somewhere in a line, and only one
character at a time belongs to nothing. -/
structure Formed (s : Segment) : Prop where
  lexeme : s.isLexeme = true → ∃ (r : Rule) (rest : List Char),
    s.kind = r.kind ∧ r.TakesFirst (s.chars ++ rest) s.chars ∧ '\n' ∉ s.chars ++ rest
  illegal : s.kind = .illegal → ∃ c, s.chars = [c]

theorem Rule.kind_ne_illegal (r : Rule) : r.kind ≠ .illegal := by cases r <;> simp [Rule.kind]

theorem Cut.formed (h : Cut cs ss) (hcs : '\n' ∉ cs) : ∀ s ∈ ss, Formed s := by
  induction h with
  | nil => exact List.forall_mem_nil _
  | blank _ _ ih =>
    refine List.forall_mem_cons.mpr ⟨⟨by simp [Segment.isLexeme], by simp⟩, ih fun h => hcs ?_⟩
    exact .tail _ h
  | @rule r w cs ss _ htakes _ ih =>
    refine List.forall_mem_cons.mpr ⟨⟨fun _ => ⟨r, cs, rfl, htakes, hcs⟩, fun h => ?_⟩,
      ih fun h => hcs ?_⟩
    · exact absurd h r.kind_ne_illegal
    · exact List.mem_append_right _ h
  | illegal _ _ _ ih =>
    refine List.forall_mem_cons.mpr ⟨⟨by simp [Segment.isLexeme], fun _ => ⟨_, rfl⟩⟩,
      ih fun h => hcs ?_⟩
    exact .tail _ h

/-! ### Where segments stand -/

/-- A segment in a text: the number of its line, and the segments of the line before it. -/
structure Occurrence where
  line : Nat
  before : List Segment
  segment : Segment

namespace Occurrence

/-- The number of characters of the line before the segment. -/
def column (o : Occurrence) : Nat := (o.before.flatMap (·.chars)).length

/-- The token has the place of the lexeme, the terminal that it stands for and what it carries. -/
structure ReadAs (o : Occurrence) (t : Token) : Prop where
  line : t.line = o.line
  column : t.column = o.column
  means : ∃ c sign, o.segment.kind = .lexeme c ∧ Means c o.segment.chars sign t.lexeme ∧
    t.type = sign.symbol
  terminal : t.type ∈ grammar.terminals

end Occurrence

/-- The segments of a line after some others. -/
def occurrencesFrom (line : Nat) : (before : List Segment) → List Segment → List Occurrence
  | _, [] => []
  | before, s :: ss => ⟨line, before, s⟩ :: occurrencesFrom line (before ++ [s]) ss

/-- The segments of a text whose lines are numbered from a given number. -/
def occurrences (line : Nat) (cuts : List (List Segment)) : List Occurrence :=
  (cuts.zipIdx line).flatMap fun cut => occurrencesFrom cut.2 [] cut.1

/-- The lexemes of a text in their order. -/
def lexemes (line : Nat) (cuts : List (List Segment)) : List Occurrence :=
  (occurrences line cuts).filter (·.segment.isLexeme)

/-! ### Reading segments -/

/-- The token of a lexeme at a place. -/
def tokenOf (line column : Nat) (c : LexemeClass) (w : List Char) : Token :=
  { type := symbol (terminalName c w), lexeme := lexemeValue c w, line, column }

/-- The token of a segment at a place, if it is a lexeme. -/
def tokenOf? (line column : Nat) (s : Segment) : Option Token :=
  match s.kind with
  | .lexeme c => some (tokenOf line column c s.chars)
  | _ => none

/-- The characters that a segment reports. -/
def reported (s : Segment) : List Char := if s.kind = .illegal then s.chars else []

theorem readSegments_cons (h : s.isTooLong = false) (line column : Nat) (ss : List Segment)
    (after : Lexed) :
    readSegments line column (s :: ss) after =
      let rest := readSegments line (column + s.chars.length) ss after
      { tokens := (tokenOf? line column s).toList ++ rest.tokens
        illegal := reported s ++ rest.illegal
        tooLong := rest.tooLong } := by
  obtain ⟨kind, w⟩ := s
  cases kind with
  | blank | comment | illegal => rfl
  | lexeme c =>
    have hlong : ¬ (c == .integer && Text.maxDigits < w.length) = true := by
      simpa [Segment.isTooLong] using h
    simp only [readSegments, hlong]
    rfl

theorem readSegments_of_tooLong (h : s.isTooLong = true) (line column : Nat) (ss : List Segment)
    (after : Lexed) : readSegments line column (s :: ss) after = { tooLong := true } := by
  obtain ⟨kind, w⟩ := s
  simp only [Segment.isTooLong, Bool.and_eq_true, beq_iff_eq, decide_eq_true_eq] at h
  simp [readSegments, h.1, h.2]

theorem readSegments_tooLong (h : ∃ s ∈ ss, s.isTooLong = true) (line column : Nat)
    (after : Lexed) : (readSegments line column ss after).tooLong = true := by
  induction ss generalizing column with
  | nil => simp at h
  | cons s ss ih =>
    cases hs : s.isTooLong with
    | true => rw [readSegments_of_tooLong hs]
    | false =>
      rw [readSegments_cons hs]
      exact ih (by simpa [hs] using h) _

theorem Formed.readAs {o : Occurrence} (h : Formed o.segment)
    (ht : t ∈ tokenOf? o.line o.column o.segment) : o.ReadAs t := by
  obtain ⟨line, before, kind, w⟩ := o
  cases kind with
  | blank | comment | illegal => cases ht
  | lexeme c =>
    obtain rfl : tokenOf line _ c w = t := Option.some.inj ht
    obtain ⟨r, rest, hkind, htakes, hcs⟩ := h.lexeme rfl
    obtain ⟨sign, d, hmeans⟩ := exists_means htakes.mem_order hkind.symm htakes.takes.fits
      fun hw => hcs (List.mem_append_left _ hw)
    obtain rfl := hmeans.value_eq
    have htype : ∀ column, (tokenOf line column c w).type = sign.symbol := by
      simp only [tokenOf, hmeans.type_eq, implies_true]
    refine ⟨rfl, rfl, ⟨c, sign, rfl, hmeans, htype _⟩, ?_⟩
    rw [grammar_terminals]
    exact List.mem_map.mpr ⟨sign, Sign.mem_terminals hmeans.kind_eq, (htype _).symm⟩

theorem tokenOf?_isSome (line column : Nat) (s : Segment) :
    (tokenOf? line column s).isSome = s.isLexeme := by
  obtain ⟨kind, w⟩ := s
  cases kind <;> rfl

theorem readSegments_ok (hformed : ∀ s ∈ ss, Formed s) (hlong : ∀ s ∈ ss, s.isTooLong = false)
    (line : Nat)
    (before : List Segment) (after : Lexed) :
    ∃ ts, List.Forall₂ Occurrence.ReadAs
      ((occurrencesFrom line before ss).filter (·.segment.isLexeme)) ts ∧
      readSegments line (before.flatMap (·.chars)).length ss after =
        { tokens := ts ++ after.tokens, illegal := ss.flatMap reported ++ after.illegal,
          tooLong := after.tooLong } := by
  induction ss generalizing before with
  | nil => exact ⟨[], .nil, rfl⟩
  | cons s ss ih =>
    rw [List.forall_mem_cons] at hformed hlong
    obtain ⟨ts, hts, hread⟩ := ih hformed.2 hlong.2 (before ++ [s])
    rw [List.flatMap_append, List.flatMap_singleton, List.length_append] at hread
    refine ⟨(tokenOf? line (before.flatMap (·.chars)).length s).toList ++ ts, ?_, ?_⟩
    · rw [occurrencesFrom, List.filter_cons]
      have hsome := tokenOf?_isSome line (before.flatMap (·.chars)).length s
      have hreadAs := fun t => Formed.readAs (o := ⟨line, before, s⟩) hformed.1 (t := t)
      cases htoken : tokenOf? line (before.flatMap (·.chars)).length s with
      | none =>
        rw [htoken] at hsome
        simpa [← hsome] using hts
      | some t =>
        rw [htoken] at hsome
        simp only [← hsome, Option.isSome_some, if_true]
        exact .cons (hreadAs t htoken) hts
    · rw [readSegments_cons hlong.1, hread]
      simp

/-! ### Reading lines -/

theorem readLines_tooLong (h : ∃ l ∈ ls, ∃ s ∈ segments l, s.isTooLong = true) (line : Nat) :
    (readLines line ls).tooLong = true := by
  induction ls generalizing line with
  | nil => simp at h
  | cons l ls ih =>
    rw [readLines]
    split
    · assumption
    · rename_i hhere
      refine ih ?_ (line + 1)
      obtain ⟨l', hl', hs⟩ := h
      rcases List.mem_cons.mp hl' with rfl | hl'
      · exact absurd (readSegments_tooLong hs line 0 {}) hhere
      · exact ⟨l', hl', hs⟩

theorem readLines_ok (hls : ∀ l ∈ ls, '\n' ∉ l)
    (hlong : ∀ l ∈ ls, ∀ s ∈ segments l, s.isTooLong = false) (line : Nat) :
    ∃ ts, List.Forall₂ Occurrence.ReadAs (lexemes line (ls.map segments)) ts ∧
      readLines line ls =
        { tokens := ts, illegal := (ls.map segments).flatten.flatMap reported } := by
  induction ls generalizing line with
  | nil => exact ⟨[], .nil, rfl⟩
  | cons l ls ih =>
    rw [List.forall_mem_cons] at hls hlong
    obtain ⟨ts, hts, hread⟩ :=
        readSegments_ok ((segments_cut hls.1).formed hls.1) hlong.1 line [] {}
    obtain ⟨ts', hts', hread'⟩ := ih hls.2 hlong.2 (line + 1)
    refine ⟨ts ++ ts', ?_, ?_⟩
    · rw [lexemes, occurrences, List.map_cons, List.zipIdx_cons, List.flatMap_cons,
        List.filter_append]
      exact List.rel_append hts hts'
    · rw [List.flatMap_nil, List.length_nil] at hread
      rw [readLines, hread, hread']
      simp

/-- What is reported about a segment that belongs to nothing. -/
def complaint (s : Segment) : String := "Illegal character '" ++ String.ofList s.chars ++ "'\n"

theorem complaint_eq (h : s.chars = [ch]) :
    complaint s = "Illegal character '" ++ ch.toString ++ "'\n" := by
  unfold complaint
  rw [h, Char.toString_eq_singleton, String.singleton_eq_ofList]

theorem report_eq {l : Lexed} (hformed : ∀ s ∈ ss, Formed s) (h : l.illegal = ss.flatMap reported) :
    l.report = String.join ((ss.filter (·.kind = .illegal)).map complaint) := by
  refine congrArg String.join ?_
  rw [h]
  clear h
  induction ss with
  | nil => rfl
  | cons s ss ih =>
    rw [List.forall_mem_cons] at hformed
    rw [List.flatMap_cons, List.map_append, ih hformed.2, reported]
    by_cases hs : s.kind = .illegal
    · obtain ⟨ch, hch⟩ := hformed.1.illegal hs
      rw [if_pos hs, hch, List.map_singleton, List.singleton_append, ← complaint_eq hch,
        List.filter_cons_of_pos (by simpa using hs), List.map_cons]
    · rw [if_neg hs, List.map_nil, List.nil_append, List.filter_cons_of_neg (by simpa using hs)]

theorem tokens?_of_tooLong {l : Lexed} (h : l.tooLong = true) : l.tokens? = none := by
  rw [Lexed.tokens?, if_pos h]

theorem tokens?_of_not_tooLong {l : Lexed} (h : l.tooLong = false) :
    l.tokens? = some (l.tokens ++ [Token.ofEndMark grammar.endMark]) := by
  rw [Lexed.tokens?, h, if_neg Bool.false_ne_true]

/-- The segments of the lines of a text. -/
def cuts (text : String) : List (List Segment) := (text.toList.splitOn '\n').map segments

theorem forall_mem_cuts {P : Segment → Prop} :
    (∀ s ∈ (cuts text).flatten, P s) ↔ ∀ l ∈ text.toList.splitOn '\n', ∀ s ∈ segments l, P s := by
  rw [cuts, List.forall_mem_flatten, List.forall_mem_map]

theorem cuts_formed (text : String) : ∀ s ∈ (cuts text).flatten, Formed s := by
  rw [forall_mem_cuts]
  intro l hl
  have hbreak := not_mem_of_mem_splitOn hl
  exact (segments_cut hbreak).formed hbreak

theorem read_tooLong (h : ∃ s ∈ (cuts text).flatten, s.isTooLong = true) :
    (read text).tooLong = true := by
  obtain ⟨s, hs, hlong⟩ := h
  obtain ⟨ss, hss, hs⟩ := List.mem_flatten.mp hs
  obtain ⟨l, hl, rfl⟩ := List.mem_map.mp hss
  rw [read, lines_eq_splitOn]
  exact readLines_tooLong ⟨l, hl, s, hs, hlong⟩ 1

theorem read_ok (h : ∀ s ∈ (cuts text).flatten, s.isTooLong = false) :
    ∃ ts, List.Forall₂ Occurrence.ReadAs (lexemes 1 (cuts text)) ts ∧
      read text = { tokens := ts, illegal := (cuts text).flatten.flatMap reported } := by
  rw [read, lines_eq_splitOn]
  exact readLines_ok (fun l => not_mem_of_mem_splitOn) (forall_mem_cuts.mp h) 1

/-- The lines of every text are cut into segments, which together are the lines. If a number among
them has too many digits, nothing is read. Otherwise the tokens before the end mark are the lexemes
among the segments, in their order, and the segments that belong to nothing are reported, in their
order. -/
theorem read_covers (text : String) : ∃ cuts : List (List Segment),
    List.Forall₂ Cut (text.toList.splitOn '\n') cuts ∧
    cuts.map (·.flatMap (·.chars)) = text.toList.splitOn '\n' ∧
    ((∃ s ∈ cuts.flatten, s.isTooLong = true) ∧ (read text).tokens? = none ∨
      (∀ s ∈ cuts.flatten, s.isTooLong = false) ∧
      (∃ ts, (read text).tokens? = some (ts ++ [Token.ofEndMark grammar.endMark]) ∧
        List.Forall₂ Occurrence.ReadAs (lexemes 1 cuts) ts) ∧
      (read text).report = String.join
        ((cuts.flatten.filter (·.kind = .illegal)).map complaint)) := by
  have hcut : ∀ l ∈ text.toList.splitOn '\n', Cut l (segments l) :=
    fun l hl => segments_cut (not_mem_of_mem_splitOn hl)
  refine ⟨cuts text, ?_, ?_, ?_⟩
  · rw [cuts, List.forall₂_map_right_iff, List.forall₂_same]
    exact hcut
  · rw [cuts, List.map_map]
    exact (List.map_congr_left fun l hl => (hcut l hl).flatMap_chars).trans (List.map_id _)
  · by_cases hlong : ∃ s ∈ (cuts text).flatten, s.isTooLong = true
    · exact .inl ⟨hlong, tokens?_of_tooLong (read_tooLong hlong)⟩
    · have hshort : ∀ s ∈ (cuts text).flatten, s.isTooLong = false :=
        fun s hs => Bool.eq_false_iff.mpr fun h => hlong ⟨s, hs, h⟩
      obtain ⟨ts, hts, hread⟩ := read_ok hshort
      rw [hread]
      exact .inr ⟨hshort, ⟨ts, tokens?_of_not_tooLong rfl, hts⟩, report_eq (cuts_formed text) rfl⟩

end Lexer

end AutoCool.Cool
