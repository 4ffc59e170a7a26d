import Mathlib.Data.List.TakeWhile
import AutoCool.Cool.Lexer

/-!
# Patterns of lexemes

A pattern describes texts (`Pattern.Fits`). At a place of a line it takes the longest front of the
rest that it describes (`Pattern.Takes`). The rules of the lexer are patterns, tried in the order of
`Rule.order`, and what the lexer takes for a rule is what its pattern takes (`Rule.reads`). The
patterns of strings and comments have parts with a line break in them, which no line can fit.
-/

namespace AutoCool.Cool.Lexer

/-- Patterns of texts. -/
inductive Pattern
  /-- One character of a class. -/
  | one (p : Char → Bool)
  | empty
  /-- Two patterns one after the other. -/
  | seq (a b : Pattern)
  /-- One of two patterns. -/
  | alt (a b : Pattern)
  /-- A pattern any number of times. -/
  | many (a : Pattern)

namespace Pattern

/-- The texts that a pattern describes. -/
inductive Fits : Pattern → List Char → Prop
  | one : p c = true → Fits (.one p) [c]
  | empty : Fits .empty []
  | seq : Fits a u → Fits b v → Fits (.seq a b) (u ++ v)
  | left : Fits a w → Fits (.alt a b) w
  | right : Fits b w → Fits (.alt a b) w
  | never : Fits (.many a) []
  | again : Fits a u → Fits (.many a) v → Fits (.many a) (u ++ v)

def oneOf (cs : List Char) : Pattern := .one fun c => decide (c ∈ cs)

def noneOf (cs : List Char) : Pattern := .one fun c => decide (c ∉ cs)

def text : List Char → Pattern
  | [] => .empty
  | c :: cs => .seq (oneOf [c]) (text cs)

def atLeastOnce (a : Pattern) : Pattern := .seq a (.many a)

variable {p : Char → Bool} {a b : Pattern} {w : List Char}

@[simp] theorem fits_one : (one p).Fits w ↔ ∃ c, p c = true ∧ w = [c] := by
  constructor
  · intro h
    cases h with
    | one h => exact ⟨_, h, rfl⟩
  · rintro ⟨c, h, rfl⟩
    exact .one h

@[simp] theorem fits_seq : (seq a b).Fits w ↔ ∃ u v, a.Fits u ∧ b.Fits v ∧ w = u ++ v := by
  constructor
  · intro h
    cases h with
    | seq ha hb => exact ⟨_, _, ha, hb, rfl⟩
  · rintro ⟨u, v, ha, hb, rfl⟩
    exact .seq ha hb

@[simp] theorem fits_alt : (alt a b).Fits w ↔ a.Fits w ∨ b.Fits w := by
  constructor
  · intro h
    cases h with
    | left h => exact .inl h
    | right h => exact .inr h
  · rintro (h | h)
    · exact .left h
    · exact .right h

@[simp] theorem fits_text : (text cs).Fits w ↔ w = cs := by
  induction cs generalizing w with
  | nil =>
    constructor
    · intro h
      cases h
      rfl
    · rintro rfl
      exact .empty
  | cons c cs ih => simp [text, oneOf, ih]

@[simp] theorem fits_many_one : (many (one p)).Fits w ↔ ∀ c ∈ w, p c = true := by
  constructor
  · intro h
    generalize hm : many (one p) = m at h
    induction h with
    | never => simp
    | again h _ _ ih =>
      cases hm
      obtain ⟨c, hc, rfl⟩ := fits_one.mp h
      simpa [hc] using ih rfl
    | _ => cases hm
  · intro h
    induction w with
    | nil => exact .never
    | cons c w ih =>
      exact .again (u := [c]) (.one (h c (by simp))) (ih fun d hd => h d (by simp [hd]))

/-- A pattern that describes only texts with a given character, repeated, describes no other text
without it than the empty one. -/
theorem eq_nil_of_fits_many (ha : ∀ u, a.Fits u → c ∈ u) (h : (many a).Fits w) (hw : c ∉ w) :
    w = [] := by
  generalize hm : many a = m at h
  cases h with
  | never => rfl
  | again h _ =>
    cases hm
    exact absurd (List.mem_append_left _ (ha _ h)) hw
  | _ => cases hm

/-- The pattern describes no front of the text. -/
def Misses (a : Pattern) (text : List Char) : Prop := ∀ w, w <+: text → ¬ a.Fits w

/-- The pattern describes the front of the text, and no longer one. -/
structure Takes (a : Pattern) (text w : List Char) : Prop where
  front : w <+: text
  fits : a.Fits w
  longest : ∀ v, v <+: text → a.Fits v → v.length ≤ w.length

/-- What is read at the front of a text is what the pattern takes; nothing, if it describes no
front. -/
structure Reads (a : Pattern) (text : List Char) (taken : Option (List Char)) : Prop where
  misses : taken = none → a.Misses text
  takes : ∀ w, taken = some w → a.Takes text w

theorem Reads.of_only {text : List Char}
    (honly : ∀ v, v <+: text → a.Fits v → taken = some v)
    (htaken : ∀ w, taken = some w → w <+: text ∧ a.Fits w) : a.Reads text taken where
  misses h v hv hfit := by rw [honly v hv hfit] at h; cases h
  takes w h := by
    obtain ⟨hfront, hfits⟩ := htaken w h
    refine ⟨hfront, hfits, fun v hv hfit => ?_⟩
    cases h.symm.trans (honly v hv hfit)
    exact Nat.le_refl _

theorem Takes.unique {text : List Char} (hw : a.Takes text w) (hv : a.Takes text v) : w = v := by
  have hlen := Nat.le_antisymm (hv.longest w hw.front hw.fits) (hw.longest v hv.front hv.fits)
  exact (List.prefix_of_prefix_length_le hw.front hv.front (Nat.le_of_eq hlen)).eq_of_length hlen

theorem Takes.not_misses {text : List Char} (hw : a.Takes text w) : ¬ a.Misses text :=
  fun h => h w hw.front hw.fits

section

variable {text : List Char} {taken : Option (List Char)}

theorem Reads.eq_none_iff (h : a.Reads text taken) : taken = none ↔ a.Misses text := by
  refine ⟨h.misses, fun hmiss => ?_⟩
  cases taken with
  | none => rfl
  | some w => exact absurd hmiss (h.takes w rfl).not_misses

theorem Reads.eq_some_iff (h : a.Reads text taken) : taken = some w ↔ a.Takes text w := by
  refine ⟨h.takes w, fun hw => ?_⟩
  cases taken with
  | none => exact absurd (h.misses rfl) hw.not_misses
  | some v => rw [(h.takes v rfl).unique hw]

end

end Pattern

/-! ### Rules -/

/-- The rules of the lexer: the classes of lexemes, with a rule for each mark, and comments. -/
inductive Rule
  | integer
  | string
  | bool
  | comment
  | not
  | type
  | word
  | mark (m : String)
deriving DecidableEq, Repr

namespace Rule

open Pattern

/-- A string: between two quotes anything but quotes, null characters and line breaks, or a line
break after a backslash. -/
def stringPattern : Pattern :=
  let inside := many (noneOf ['\x00', '\n', '"'])
  .seq (oneOf ['"']) (.seq inside (.seq (many (.seq (text ['\\', '\n']) inside)) (oneOf ['"'])))

/-- A comment: from two dashes to the end of the line, or between its marks. -/
def commentPattern : Pattern :=
  .alt (.seq (text ['-', '-']) (.seq (atLeastOnce (noneOf ['\n'])) (oneOf ['\n'])))
    (.seq (text ['(', '*']) (.seq (atLeastOnce (noneOf ['(', '*', ')'])) (text ['*', ')'])))

def namePattern (first : Char → Bool) : Pattern :=
  .seq (.one first) (many (.one fun c => c.isAlphanum || c == '_'))

def pattern : Rule → Pattern
  | integer => atLeastOnce (.one Char.isDigit)
  | string => stringPattern
  | bool => .alt (.text ['t', 'r', 'u', 'e']) (.text ['f', 'a', 'l', 's', 'e'])
  | comment => commentPattern
  | not => .seq (oneOf ['n', 'N']) (.seq (oneOf ['o', 'O']) (oneOf ['t', 'T']))
  | type => namePattern Char.isUpper
  | word => namePattern Char.isLower
  | mark m => .text m.toList

/-- The rules in the order in which they are tried. -/
def order : List Rule :=
  [integer, string, bool, comment, not, type, word] ++
    ["<-", "<=", "=>", "<", "=", "~"].map mark ++
    ["+", "-", "*", "/", ":", ";", "(", ")", "\x7b", "\x7d", "@", ".", ","].map mark

/-- What a segment that a rule takes is. -/
def kind : Rule → SegmentKind
  | integer => .lexeme .integer
  | string => .lexeme .string
  | bool => .lexeme .bool
  | comment => .comment
  | not => .lexeme .not
  | type => .lexeme .type
  | word => .lexeme .word
  | mark _ => .lexeme .mark

/-- What the lexer takes for a rule. -/
def take : Rule → List Char → Option (List Char)
  | integer => integer?
  | string => string?
  | bool => oneOf? ["true", "false"]
  | comment => comment?
  | not => not?
  | type => name? Char.isUpper
  | word => name? Char.isLower
  | mark m => oneOf? [m]

end Rule

/-! ### What the rules describe -/

variable {p q : Char → Bool} {c : Char} {cs u v w : List Char}

theorem fits_leading : (Pattern.seq (.one p) (.many (.one q))).Fits w ↔
    ∃ c u, w = c :: u ∧ p c = true ∧ ∀ d ∈ u, q d = true := by
  simp only [Pattern.fits_seq, Pattern.fits_one, Pattern.fits_many_one]
  constructor
  · rintro ⟨_, u, ⟨c, hc, rfl⟩, hu, rfl⟩
    exact ⟨c, u, rfl, hc, hu⟩
  · rintro ⟨c, u, rfl, hc, hu⟩
    exact ⟨[c], u, ⟨c, hc, rfl⟩, hu, rfl⟩

theorem decide_not_mem_string : decide (c ∉ ['\x00', '\n', '"']) = isStringChar c := by
  have hnull : c = '\x00' ↔ c.toNat = 0 := ⟨fun h => h ▸ rfl, fun h => Char.toNat_inj.mp h⟩
  rw [Bool.eq_iff_iff]
  simp [isStringChar, hnull, and_assoc]

theorem decide_not_mem_comment : decide (c ∉ ['(', '*', ')']) = isCommentChar c := by
  rw [Bool.eq_iff_iff]
  simp [isCommentChar, and_assoc]

theorem fits_string (hw : '\n' ∉ w) : Rule.string.pattern.Fits w ↔
    ∃ u, w = '"' :: (u ++ ['"']) ∧ ∀ c ∈ u, isStringChar c = true := by
  simp only [Rule.pattern, Rule.stringPattern, Pattern.oneOf, Pattern.noneOf, Pattern.fits_seq,
    Pattern.fits_one,
    Pattern.fits_many_one, decide_not_mem_string, List.mem_singleton, decide_eq_true_eq]
  constructor
  · rintro ⟨_, _, ⟨_, rfl, rfl⟩, ⟨u, _, hu, ⟨m, _, hm, ⟨_, rfl, rfl⟩, rfl⟩, rfl⟩, rfl⟩
    obtain rfl : m = [] := by
      refine Pattern.eq_nil_of_fits_many (c := '\n') (fun x hx => ?_) hm fun h => hw (by simp [h])
      obtain ⟨y, z, hy, -, rfl⟩ := Pattern.fits_seq.mp hx
      obtain rfl := Pattern.fits_text.mp hy
      simp
    exact ⟨u, rfl, hu⟩
  · rintro ⟨u, rfl, hu⟩
    exact ⟨['"'], _, ⟨'"', rfl, rfl⟩, ⟨u, _, hu, ⟨[], _, .never, ⟨'"', rfl, rfl⟩, rfl⟩, rfl⟩, rfl⟩

theorem fits_commentInside : (Pattern.atLeastOnce (.noneOf ['(', '*', ')'])).Fits w ↔
    w ≠ [] ∧ ∀ c ∈ w, isCommentChar c = true := by
  rw [Pattern.atLeastOnce, Pattern.noneOf, fits_leading]
  simp only [decide_not_mem_comment]
  constructor
  · rintro ⟨c, u, rfl, hc, hu⟩
    exact ⟨List.cons_ne_nil c u, List.forall_mem_cons.mpr ⟨hc, hu⟩⟩
  · rintro ⟨hne, hw⟩
    obtain ⟨c, u, rfl⟩ := List.exists_cons_of_ne_nil hne
    exact ⟨c, u, rfl, List.forall_mem_cons.mp hw⟩

theorem fits_comment (hw : '\n' ∉ w) : Rule.comment.pattern.Fits w ↔
    ∃ u, w = '(' :: '*' :: (u ++ ['*', ')']) ∧ u ≠ [] ∧ ∀ c ∈ u, isCommentChar c = true := by
  rw [Rule.pattern, Rule.commentPattern, Pattern.fits_alt]
  constructor
  · rintro (h | h)
    · obtain ⟨_, rest, -, hrest, rfl⟩ := Pattern.fits_seq.mp h
      obtain ⟨_, last, -, hlast, rfl⟩ := Pattern.fits_seq.mp hrest
      obtain ⟨c, hc, rfl⟩ := Pattern.fits_one.mp hlast
      obtain rfl : c = '\n' := by simpa using hc
      simp at hw
    · obtain ⟨_, rest, hopen, hrest, rfl⟩ := Pattern.fits_seq.mp h
      obtain ⟨u, _, hu, hclose, rfl⟩ := Pattern.fits_seq.mp hrest
      rw [Pattern.fits_text.mp hopen, Pattern.fits_text.mp hclose]
      exact ⟨u, rfl, fits_commentInside.mp hu⟩
  · rintro ⟨u, rfl, hu⟩
    have hrest := Pattern.Fits.seq (fits_commentInside.mpr hu)
        (Pattern.fits_text.mpr (rfl : ['*', ')'] = _))
    exact .inr (.seq (u := ['(', '*']) (Pattern.fits_text.mpr rfl) hrest)

theorem fits_not : Rule.not.pattern.Fits w ↔
    ∃ a b c, w = [a, b, c] ∧ (a = 'n' ∨ a = 'N') ∧ (b = 'o' ∨ b = 'O') ∧ (c = 't' ∨ c = 'T') := by
  simp only [Rule.pattern, Pattern.oneOf, Pattern.fits_seq, Pattern.fits_one, List.mem_cons,
    List.not_mem_nil, or_false,
    decide_eq_true_eq]
  constructor
  · rintro ⟨_, _, ⟨a, ha, rfl⟩, ⟨_, _, ⟨b, hb, rfl⟩, ⟨c, hc, rfl⟩, rfl⟩, rfl⟩
    exact ⟨a, b, c, rfl, ha, hb, hc⟩
  · rintro ⟨a, b, c, rfl, ha, hb, hc⟩
    exact ⟨[a], [b, c], ⟨a, ha, rfl⟩, ⟨[b], [c], ⟨b, hb, rfl⟩, ⟨c, hc, rfl⟩, rfl⟩, rfl⟩

theorem fits_bool : Rule.bool.pattern.Fits w ↔ w = ['t', 'r', 'u', 'e'] ∨
    w = ['f', 'a', 'l', 's', 'e'] := by
  simp [Rule.pattern]

/-! ### What the rules take -/

theorem length_le_takeWhile (hv : v <+: cs) (h : ∀ c ∈ v, p c = true) :
    v.length ≤ (cs.takeWhile p).length := by
  obtain ⟨rest, rfl⟩ := hv
  rw [List.takeWhile_append_of_pos h, List.length_append]
  exact Nat.le_add_right ..

theorem takeWhile_of_front (hu : ∀ d ∈ u, p d = true) (hc : p c = false) (h : u ++ c :: v <+: cs) :
    cs.takeWhile p = u ∧ c :: v <+: cs.dropWhile p := by
  obtain ⟨rest, rfl⟩ := h
  rw [List.append_assoc, List.takeWhile_append_of_pos hu, List.dropWhile_append_of_pos hu,
    List.cons_append,
    List.takeWhile_cons_of_neg (by simp [hc]), List.dropWhile_cons_of_neg (by simp [hc]),
      List.append_nil]
  exact ⟨rfl, rest, rfl⟩

theorem leading_misses (h : ∀ c ∈ cs.head?, p c = false) :
    (Pattern.seq (.one p) (.many (.one q))).Misses cs := by
  intro v hv hfit
  obtain ⟨c, u, rfl, hc, -⟩ := fits_leading.mp hfit
  obtain ⟨rest, rfl⟩ := hv
  simp [h c rfl] at hc

theorem leading_takes (hc : p c = true) :
    (Pattern.seq (.one p) (.many (.one q))).Takes (c :: cs) (c :: cs.takeWhile q) := by
  refine ⟨List.cons_prefix_cons.mpr ⟨rfl, List.takeWhile_prefix q⟩, ?_, fun v hv hfit => ?_⟩
  · exact fits_leading.mpr ⟨c, _, rfl, hc, fun d hd => List.mem_takeWhile_imp hd⟩
  · obtain ⟨d, u, rfl, -, hu⟩ := fits_leading.mp hfit
    exact Nat.succ_le_succ (length_le_takeWhile (List.cons_prefix_cons.mp hv).2 hu)

theorem name_reads (first : Char → Bool) (cs : List Char) :
    (Rule.namePattern first).Reads cs (name? first cs) := by
  cases cs with
  | nil => exact ⟨fun _ => leading_misses (by simp), fun w h => by cases h⟩
  | cons c cs =>
    by_cases hc : first c = true
    · refine ⟨fun h => by simp [name?, hc] at h, fun w h => ?_⟩
      simp only [name?, hc, if_true, Option.some.injEq] at h
      exact h ▸ leading_takes hc
    · exact ⟨fun _ => leading_misses (by simpa using hc), fun w h => by simp [name?, hc] at h⟩

theorem integer_reads (cs : List Char) : Rule.integer.pattern.Reads cs (integer? cs) := by
  cases cs with
  | nil => exact ⟨fun _ => leading_misses (by simp), fun w h => by cases h⟩
  | cons c cs =>
    by_cases hc : c.isDigit = true
    · refine ⟨fun h => by simp [integer?, hc] at h, fun w h => ?_⟩
      simp only [integer?, List.takeWhile_cons, hc, if_true, List.isEmpty_cons, Bool.false_eq_true,
        if_false,
        Option.some.injEq] at h
      exact h ▸ leading_takes hc
    · exact ⟨fun _ => leading_misses (by simpa using hc), fun w h => by simp [integer?, hc] at h⟩

theorem string?_eq_some : string? cs = some w ↔ ∃ ds rest, cs = '"' :: ds ∧
    ds.dropWhile isStringChar = '"' :: rest ∧ w = '"' :: (ds.takeWhile isStringChar ++ ['"']) := by
  unfold string?
  split
  · rename_i ds
    split
    · rename_i rest hrest
      simp [hrest, eq_comm]
    · rename_i hnot
      simp only [reduceCtorEq, false_iff]
      rintro ⟨ds', rest, heq, hrest, -⟩
      cases heq
      exact hnot rest hrest
  · rename_i hnot
    simp only [reduceCtorEq, false_iff]
    rintro ⟨ds, rest, rfl, -⟩
    exact hnot ds rfl

theorem string?_of_fits (hcs : '\n' ∉ cs) (hv : v <+: cs) (hfit : Rule.string.pattern.Fits v) :
    string? cs = some v := by
  obtain ⟨u, rfl, hu⟩ := (fits_string fun h => hcs (hv.subset h)).mp hfit
  obtain ⟨tail, rfl⟩ := hv
  obtain ⟨htake, rest, hdrop⟩ := takeWhile_of_front hu (by decide : isStringChar '"' = false)
    (List.prefix_append (u ++ ['"']) tail)
  exact string?_eq_some.mpr ⟨u ++ ['"'] ++ tail, rest, rfl, hdrop.symm, by rw [htake]⟩

theorem string_reads (hcs : '\n' ∉ cs) : Rule.string.pattern.Reads cs (string? cs) := by
  refine .of_only (fun v hv hfit => string?_of_fits hcs hv hfit) fun w h => ?_
  obtain ⟨ds, rest, rfl, hdrop, rfl⟩ := string?_eq_some.mp h
  have hfront : '"' :: (ds.takeWhile isStringChar ++ ['"']) <+: '"' :: ds := by
    refine List.cons_prefix_cons.mpr ⟨rfl, rest, ?_⟩
    rw [List.append_assoc, List.singleton_append, ← hdrop, List.takeWhile_append_dropWhile]
  exact ⟨hfront, (fits_string fun hn => hcs (hfront.subset hn)).mpr
    ⟨_, rfl, fun c hc => List.mem_takeWhile_imp hc⟩⟩

theorem comment?_eq_some : comment? cs = some w ↔ ∃ ds rest, cs = '(' :: '*' :: ds ∧
    ds.takeWhile isCommentChar ≠ [] ∧ ds.dropWhile isCommentChar = '*' :: ')' :: rest ∧
    w = '(' :: '*' :: (ds.takeWhile isCommentChar ++ ['*', ')']) := by
  unfold comment?
  split
  · rename_i ds
    dsimp only
    split
    · rename_i c u rest hinner hrest
      rw [hinner]
      constructor
      · intro h
        exact ⟨ds, rest, rfl, by simp [hinner], hrest, by rw [hinner]; exact (Option.some.inj
          h).symm⟩
      · rintro ⟨ds', rest', heq, -, -, rfl⟩
        cases heq
        rw [hinner]
        rfl
    · rename_i hnot
      simp only [reduceCtorEq, false_iff]
      rintro ⟨ds', rest, heq, hne, hrest, -⟩
      cases heq
      obtain ⟨c, u, hu⟩ := List.exists_cons_of_ne_nil hne
      exact hnot c u rest hu hrest
  · rename_i hnot
    simp only [reduceCtorEq, false_iff]
    rintro ⟨ds, rest, rfl, -⟩
    exact hnot ds rfl

theorem comment_reads (hcs : '\n' ∉ cs) : Rule.comment.pattern.Reads cs (comment? cs) := by
  refine .of_only (fun v hv hfit => ?_) fun w h => ?_
  · obtain ⟨u, rfl, hne, hu⟩ := (fits_comment fun h => hcs (hv.subset h)).mp hfit
    obtain ⟨tail, rfl⟩ := hv
    obtain ⟨htake, rest, hdrop⟩ := takeWhile_of_front hu (by decide : isCommentChar '*' = false)
      (List.prefix_append (u ++ ['*', ')']) tail)
    exact comment?_eq_some.mpr ⟨u ++ ['*', ')'] ++ tail, rest,
      rfl, by rwa [htake], hdrop.symm, by rw [htake]⟩
  · obtain ⟨ds, rest, rfl, hne, hdrop, rfl⟩ := comment?_eq_some.mp h
    have hfront : '(' :: '*' :: (ds.takeWhile isCommentChar ++ ['*', ')']) <+: '(' :: '*' ::
        ds := by
      refine List.cons_prefix_cons.mpr ⟨rfl, List.cons_prefix_cons.mpr ⟨rfl, rest, ?_⟩⟩
      rw [List.append_assoc, List.cons_append, List.singleton_append, ← hdrop,
        List.takeWhile_append_dropWhile]
    exact ⟨hfront, (fits_comment fun hn => hcs (hfront.subset hn)).mpr
      ⟨_, rfl, hne, fun c hc => List.mem_takeWhile_imp hc⟩⟩

theorem not_reads (cs : List Char) : Rule.not.pattern.Reads cs (not? cs) := by
  refine .of_only (fun v hv hfit => ?_) fun w h => ?_
  · obtain ⟨a, b, c, rfl, ha, hb, hc⟩ := fits_not.mp hfit
    obtain ⟨tail, rfl⟩ := hv
    simp [not?, ha, hb, hc]
  · unfold not? at h
    split at h
    · rename_i a b c rest
      split at h
      · rename_i habc
        simp only [Bool.and_eq_true, Bool.or_eq_true, beq_iff_eq] at habc
        cases h
        exact ⟨⟨rest, rfl⟩, fits_not.mpr ⟨a, b, c, rfl, habc.1.1, habc.1.2, habc.2⟩⟩
      · cases h
    · cases h

theorem oneOf?_eq_some (h : oneOf? words cs = some w) :
    ∃ m ∈ words, w = m.toList ∧ m.toList <+: cs := by
  obtain ⟨m, hm, hw⟩ := List.exists_of_findSome?_eq_some h
  split at hw
  · rename_i hpre
    exact ⟨m, hm, (Option.some.inj hw).symm, List.isPrefixOf_iff_prefix.mp hpre⟩
  · cases hw

theorem mark_reads (m : String) (cs : List Char) :
    (Rule.mark m).pattern.Reads cs (oneOf? [m] cs) := by
  refine .of_only (fun v hv hfit => ?_) fun w h => ?_
  · rw [Pattern.fits_text.mp hfit] at hv ⊢
    simp [oneOf?, hv]
  · obtain ⟨m', hm, rfl, hpre⟩ := oneOf?_eq_some h
    rw [List.mem_singleton.mp hm] at hpre ⊢
    exact ⟨hpre, Pattern.fits_text.mpr rfl⟩

theorem bool_reads (cs : List Char) : Rule.bool.pattern.Reads cs (oneOf? ["true", "false"] cs) := by
  refine .of_only (fun v hv hfit => ?_) fun w h => ?_
  · obtain ⟨tail, rfl⟩ := hv
    rcases fits_bool.mp hfit with rfl | rfl <;> simp [oneOf?]
  · obtain ⟨m, hm, rfl, hpre⟩ := oneOf?_eq_some h
    refine ⟨hpre, fits_bool.mpr ?_⟩
    rcases List.mem_cons.mp hm with rfl | hm
    · exact .inl (by simp)
    · exact .inr (by simp [List.mem_singleton.mp hm])

theorem Rule.reads (r : Rule) (hcs : '\n' ∉ cs) : r.pattern.Reads cs (r.take cs) := by
  cases r with
  | integer => exact integer_reads cs
  | string => exact string_reads hcs
  | bool => exact bool_reads cs
  | comment => exact comment_reads hcs
  | not => exact not_reads cs
  | type => exact name_reads Char.isUpper cs
  | word => exact name_reads Char.isLower cs
  | mark m => exact mark_reads m cs

end AutoCool.Cool.Lexer
