import AutoCool.Text.Json

/-!
# Reading back what was written

A text is written in ASCII and read back as it was, whatever its characters are. Lists of values
that are read back, and records of such values with different names, are read back as well
(`Json.Reads`).
-/

namespace AutoCool.Json

variable {c : Char} {cs read rest : List Char} {n fuel : Nat} {s : String} {d : Datum}
  {ds items : List Datum}
  {fields before : List (String × Datum)}

/-! ### Texts -/

theorem toList_hex (h : n < 65536) :
    (Text.hex 4 n).toList = [(n / 4096).digitChar, (n / 256 % 16).digitChar,
      (n / 16 % 16).digitChar, (n % 16).digitChar] := by
  have hstep : ∀ {k}, 16 ≤ k → Nat.toDigits 16 k = Nat.toDigits 16 (k / 16) ++
      [(k % 16).digitChar] :=
    fun hk => Nat.toDigits_of_base_le (by decide) hk
  rw [Text.hex, String.toList_ofList]
  by_cases h1 : n < 16
  · rw [Nat.toDigits_of_lt_base h1, Nat.mod_eq_of_lt h1,
      show n / 4096 = 0 by omega, show n / 256 % 16 = 0 by omega,
      show n / 16 % 16 = 0 by omega]
    rfl
  by_cases h2 : n < 256
  · rw [hstep (by omega), Nat.toDigits_of_lt_base (by omega),
      show n / 4096 = 0 by omega, show n / 256 % 16 = 0 by omega,
      show n / 16 % 16 = n / 16 by omega]
    rfl
  by_cases h3 : n < 4096
  · rw [hstep (by omega), hstep (by omega), Nat.toDigits_of_lt_base (by omega),
      show n / 4096 = 0 by omega,
      show n / 256 % 16 = n / 16 / 16 by omega]
    rfl
  · rw [hstep (by omega), hstep (by omega), hstep (by omega), Nat.toDigits_of_lt_base (by omega),
      show n / 4096 = n / 16 / 16 / 16 by omega, show n / 256 % 16 = n / 16 / 16 % 16 by omega]
    rfl

theorem hexDigit?_digitChar : ∀ n < 16, hexDigit? n.digitChar = some n := by decide

theorem unit?_hex (h : n < 65536) : unit? ((Text.hex 4 n).toList ++ cs) = some (n, cs) := by
  rw [toList_hex h]
  simp only [List.cons_append, List.nil_append, unit?, hexDigit?_digitChar (n / 4096) (by omega),
    hexDigit?_digitChar (n / 256 % 16) (by omega), hexDigit?_digitChar (n / 16 % 16) (by omega),
    hexDigit?_digitChar (n % 16) (by omega), bind, Option.bind]
  rw [show ((n / 4096 * 16 + n / 256 % 16) * 16 + n / 16 % 16) * 16 + n % 16 = n by omega]

theorem toList_escapeUnit : (escapeUnit n).toList = '\\' :: 'u' :: (Text.hex 4 n).toList := by
  rw [escapeUnit, String.toList_append]
  rfl

theorem readText_escapeUnit (h : n < 65536) :
    readText (fuel + 1) read ((escapeUnit n).toList ++ cs) =
      readText fuel ((unitChar n cs).1 :: read) (unitChar n cs).2 := by
  rw [toList_escapeUnit, List.cons_append, List.cons_append, readText, unit?_hex h]
  rfl

theorem toNat_cases (c : Char) : c.toNat < 0xd800 ∨ 0xdfff < c.toNat ∧ c.toNat < 0x110000 := c.valid

theorem readText_escape (c : Char) : readText (fuel + 1) read ((escape c).toList ++ cs) =
      readText fuel (c :: read) cs := by
  have hchar : ∀ k, (c.toNat == k) = true → c = Char.ofNat k := fun k hk => by
    rw [← beq_iff_eq.mp hk, Char.ofNat_toNat]
  have hvalid := toNat_cases c
  unfold escape
  iterate 5
    split
    · next h => rw [beq_iff_eq.mp h]; rfl
  split
  · next h => rw [hchar 8 h]; rfl
  split
  · next h => rw [hchar 12 h]; rfl
  split
  · next hquote hslash _ _ _ _ _ h =>
    simp only [Bool.and_eq_true, decide_eq_true_eq] at h
    rw [beq_iff_eq] at hquote hslash
    simp only [Char.toString, String.toList_singleton, List.singleton_append]
    rw [readText, if_neg (by omega)] <;> simp_all
  split
  · next h =>
    rw [readText_escapeUnit h, unitChar, if_neg, if_neg, Char.ofNat_toNat]
    · simp only [Bool.and_eq_true, decide_eq_true_eq]
      omega
    · simp only [Bool.and_eq_true, decide_eq_true_eq]
      omega
  · next h =>
    have hafter : ∀ k, after? "\\u" ((escapeUnit k).toList ++ cs) = some
        ((Text.hex 4 k).toList ++ cs) := fun k => by
      rw [toList_escapeUnit]
      rfl
    have hcode : 0x10000 + (0xd800 + (c.toNat - 0x10000) / 0x400 - 0xd800) * 0x400 +
        (0xdc00 + (c.toNat - 0x10000) % 0x400 - 0xdc00) = c.toNat := by omega
    rw [String.toList_append, List.append_assoc, readText_escapeUnit (by omega), unitChar, if_pos,
      hafter, Option.bind_some,
      unit?_hex (by omega)]
    · simp only []
      rw [if_pos, hcode, Char.ofNat_toNat]
      simp only [Bool.and_eq_true, decide_eq_true_eq]
      omega
    · simp only [Bool.and_eq_true, decide_eq_true_eq]
      omega

theorem escape_ne_nil (c : Char) : (escape c).toList ≠ [] := by
  intro h
  have hread : readText 1 [] ((escape c).toList ++ ['"']) = readText 0 [c] ['"'] :=
    readText_escape c
  rw [h] at hread
  cases hread

theorem readText_flatMap (h : cs.length < fuel) :
    readText fuel read (cs.flatMap (fun c => (escape c).toList) ++ '"' :: rest) = some
      (String.ofList (read.reverse ++ cs), rest) := by
  induction cs generalizing fuel read with
  | nil =>
    obtain ⟨fuel, rfl⟩ := Nat.exists_eq_add_of_lt h
    simp [readText]
  | cons c cs ih =>
    obtain ⟨fuel, rfl⟩ : ∃ k, fuel = k + 1 := ⟨fuel - 1, by omega⟩
    rw [List.flatMap_cons, List.append_assoc, readText_escape, ih (by simpa using h),
      List.reverse_cons, List.append_assoc]
    rfl

theorem toList_writeText (s : String) :
    (writeText s).toList = '"' :: (s.toList.flatMap (fun c => (escape c).toList) ++ ['"']) := by
  simp [writeText, String.toList_join, List.flatMap_map]

theorem readText_writeText (s : String) (rest : List Char) :
    ∃ tail, (writeText s).toList ++ rest = '"' :: tail ∧ readText (tail.length + 1) [] tail = some
      (s, rest) := by
  refine ⟨s.toList.flatMap (fun c => (escape c).toList) ++ '"' ::
    rest, by simp [toList_writeText], ?_⟩
  rw [readText_flatMap, List.reverse_nil, List.nil_append, String.ofList_toList]
  have hlen : ∀ l : List Char, l.length ≤ (l.flatMap fun c => (escape c).toList).length := by
    intro l
    induction l with
    | nil => exact Nat.le_refl _
    | cons c l ih =>
      have := List.length_pos_iff.mpr (escape_ne_nil c)
      rw [List.flatMap_cons, List.length_append, List.length_cons]
      omega
  have := hlen s.toList
  rw [List.length_append]
  omega

/-! ### Values -/

/-- A value is read back from its text, whatever comes after it. -/
structure Reads (d : Datum) : Prop where
  starts : ∃ c cs, (write d).toList = c :: cs ∧ isBlank c = false ∧ c ≠ ']'
  read_eq : ∀ fuel rest, (write d).toList.length < fuel →
    readValue fuel ((write d).toList ++ rest) = .ok (d, rest)

theorem skip_cons (h : isBlank c = false) : skip (c :: cs) = c :: cs :=
  List.dropWhile_cons_of_neg (by simp [h])

theorem reads_text (s : String) : Reads (.text s) where
  starts := ⟨'"', _, toList_writeText s, by decide, by decide⟩
  read_eq fuel rest h := by
    obtain ⟨fuel, rfl⟩ : ∃ k, fuel = k + 1 := ⟨fuel - 1, by omega⟩
    obtain ⟨tail, heq, hread⟩ := readText_writeText s rest
    rw [write, heq, readValue, hread]
    rfl

theorem commas_singleton (s : String) : Text.commas [s] = s := String.intercalate_singleton

theorem toList_commas_cons (s t : String) (ws : List String) :
    (Text.commas (s :: t :: ws)).toList =
      s.toList ++ ',' :: ' ' :: (Text.commas (t :: ws)).toList := by
  simp [Text.commas, String.intercalate_cons_cons]

theorem head_commas (h : s.toList = c :: cs) (ws : List String) (rest : List Char) :
    ∃ tail, (Text.commas (s :: ws)).toList ++ rest = c :: tail := by
  cases ws with
  | nil => exact ⟨_, by rw [commas_singleton, h, List.cons_append]⟩
  | cons w ws => exact ⟨_, by rw [toList_commas_cons, h, List.cons_append, List.cons_append]⟩

theorem writeItems_eq (ds : List Datum) : writeItems ds = ds.map write := by
  induction ds with
  | nil => rfl
  | cons d ds ih => rw [writeItems, ih, List.map_cons]

theorem readItems_write (hds : ∀ e ∈ d :: ds, Reads e)
    (h : (Text.commas ((d :: ds).map write)).toList.length + 1 < fuel) (rest : List Char) :
    readItems fuel items ((Text.commas ((d :: ds).map write)).toList ++ ']' :: rest) = .ok
      (.list (items ++ d :: ds), rest) := by
  induction ds generalizing d items fuel with
  | nil =>
    obtain ⟨fuel, rfl⟩ : ∃ k, fuel = k + 1 := ⟨fuel - 1, by omega⟩
    rw [List.map_singleton, commas_singleton] at h ⊢
    rw [readItems, (hds d (.head _)).read_eq fuel _ (by omega)]
    rfl
  | cons e ds ih =>
    obtain ⟨fuel, rfl⟩ : ∃ k, fuel = k + 1 := ⟨fuel - 1, by omega⟩
    obtain ⟨hd, hds⟩ := List.forall_mem_cons.mp hds
    rw [List.map_cons, List.map_cons, toList_commas_cons, List.length_append, List.length_cons,
      List.length_cons] at h
    rw [List.map_cons, List.map_cons, toList_commas_cons, List.append_assoc, readItems,
      hd.read_eq fuel _ (by omega)]
    obtain ⟨c, cs, heq, hc, -⟩ := (hds e (.head _)).starts
    obtain ⟨tail, htail⟩ := head_commas heq (ds.map write) (']' :: rest)
    have hrest : readItems fuel (items ++ [d]) _ = _ := ih hds (by rw [List.map_cons]; omega)
    rw [List.append_assoc, List.singleton_append, List.map_cons, htail] at hrest
    rw [← hrest, List.cons_append, List.cons_append, htail]
    exact congrArg (readItems fuel (items ++ [d])) (skip_cons hc)

theorem Reads.list (hds : ∀ d ∈ ds, Reads d) : Reads (.list ds) := by
  have hwrite : (write (.list ds)).toList = '[' ::
      ((Text.commas (ds.map write)).toList ++ [']']) := by
    rw [write, writeItems_eq, Text.bracketed]
    simp
  refine ⟨⟨'[', _, hwrite, by decide, by decide⟩, fun fuel rest h => ?_⟩
  rw [hwrite, List.length_cons, List.length_append, List.length_singleton] at h
  obtain ⟨fuel, rfl⟩ : ∃ k, fuel = k + 1 := ⟨fuel - 1, by omega⟩
  rw [hwrite, List.cons_append, List.append_assoc, List.singleton_append, readValue]
  cases ds with
  | nil => rfl
  | cons d ds =>
    obtain ⟨c, cs, heq, hblank, hc⟩ := (hds d (.head _)).starts
    obtain ⟨tail, htail⟩ := head_commas heq (ds.map write) (']' :: rest)
    have hread : readItems fuel [] _ = _ := readItems_write hds (by omega) rest
    rw [List.map_cons, htail, List.nil_append] at hread
    rw [List.map_cons, htail, skip_cons hblank]
    split
    · next heq => cases heq; exact absurd rfl hc
    · exact hread

/-- The text of a field. -/
def writeField (f : String × Datum) : String := writeText f.1 ++ ": " ++ write f.2

theorem writeFields_eq (fields : List (String × Datum)) :
    writeFields fields = fields.map writeField := by
  induction fields with
  | nil => rfl
  | cons f fields ih =>
    obtain ⟨name, d⟩ := f
    rw [writeFields, ih, List.map_cons, writeField]

theorem setField_new (h : name ∉ before.map (·.1)) :
    setField before name d = before ++ [(name, d)] := by
  rw [setField, if_neg]
  intro hany
  obtain ⟨g, hg, heq⟩ := List.any_eq_true.mp hany
  exact h (List.mem_map.mpr ⟨g, hg, beq_iff_eq.mp heq⟩)

variable {f : String × Datum}

theorem readFields_writeField (hf : Reads f.2) (hname : f.1 ∉ before.map (·.1))
    (h : (writeField f).toList.length < fuel)
    (rest : List Char) : (∀ tail, skip rest = '\x7d' :: tail →
      readFields (fuel + 1) before ((writeField f).toList ++ rest) = .ok
        (.record (before ++ [f]), tail)) ∧
    ∀ tail, skip rest = ',' :: tail →
      readFields (fuel + 1) before ((writeField f).toList ++ rest) = readFields fuel (before ++ [f])
        (skip tail) := by
  obtain ⟨c, cs, heq, hc, -⟩ := hf.starts
  obtain ⟨tail, htail, hread⟩ := readText_writeText f.1 (':' :: ' ' :: ((write f.2).toList ++ rest))
  have hfield : (writeField f).toList ++ rest = '"' :: tail := by
    rw [← htail, writeField]
    simp
  have hcolon : skip (':' :: ' ' :: ((write f.2).toList ++ rest)) = ':' :: ' ' ::
      ((write f.2).toList ++ rest) := skip_cons rfl
  have hvalue : skip (' ' :: ((write f.2).toList ++ rest)) = (write f.2).toList ++ rest := by
    rw [heq, List.cons_append]
    exact skip_cons hc
  rw [writeField, String.toList_append, List.length_append] at h
  have hdatum := hf.read_eq fuel rest (by omega)
  constructor <;> intro tail hrest <;> rw [hfield, readFields] <;>
    simp only [hread, orMalformed, Option.elim_some, bind, Except.bind, hcolon, hvalue, hdatum,
      setField_new hname, hrest]
  rfl

theorem head_writeField (f : String × Datum) : ∃ cs, (writeField f).toList = '"' :: cs :=
  ⟨_, by rw [writeField, String.toList_append, String.toList_append, toList_writeText,
    List.cons_append, List.cons_append]⟩

theorem notMem_of_nodup (h : ((before ++ f :: fields).map (·.1)).Nodup) :
    f.1 ∉ before.map (·.1) := by
  rw [List.map_append, List.nodup_append] at h
  exact fun hmem => h.2.2 _ hmem _ (List.mem_map_of_mem (.head _)) rfl

theorem readFields_write (hfs : ∀ g ∈ f :: fields, Reads g.2)
    (hnames : ((before ++ f :: fields).map (·.1)).Nodup)
    (h : (Text.commas ((f :: fields).map writeField)).toList.length + 1 < fuel) (rest : List Char) :
    readFields fuel before ((Text.commas ((f :: fields).map writeField)).toList ++ '\x7d' :: rest) =
      .ok (.record (before ++ f :: fields), rest) := by
  induction fields generalizing f before fuel with
  | nil =>
    obtain ⟨fuel, rfl⟩ : ∃ k, fuel = k + 1 := ⟨fuel - 1, by omega⟩
    rw [List.map_singleton, commas_singleton] at h ⊢
    exact (readFields_writeField (hfs f (.head _)) (notMem_of_nodup hnames) (by omega) _).1 rest rfl
  | cons g fields ih =>
    obtain ⟨fuel, rfl⟩ : ∃ k, fuel = k + 1 := ⟨fuel - 1, by omega⟩
    obtain ⟨hf, hfs⟩ := List.forall_mem_cons.mp hfs
    obtain ⟨cs, heq⟩ := head_writeField g
    obtain ⟨tail, htail⟩ := head_commas heq (fields.map writeField) ('\x7d' :: rest)
    rw [List.map_cons, List.map_cons, toList_commas_cons, List.length_append, List.length_cons,
      List.length_cons] at h
    have hrest : readFields fuel (before ++ [f]) _ = _ :=
      ih hfs (by simpa using hnames) (by rw [List.map_cons]; omega)
    rw [List.map_cons, htail, List.append_assoc, List.singleton_append] at hrest
    rw [List.map_cons, List.map_cons, toList_commas_cons, List.append_assoc, List.cons_append,
      List.cons_append, htail, ← hrest]
    have hlen : (writeField f).toList.length < fuel := by omega
    exact (readFields_writeField hf (notMem_of_nodup hnames) hlen (',' :: ' ' :: '"' :: tail)).2
      (' ' :: '"' :: tail) rfl

theorem Reads.record (hfs : ∀ f ∈ fields, Reads f.2) (hnames : (fields.map (·.1)).Nodup) :
    Reads (.record fields) := by
  have hwrite : (write (.record fields)).toList = '\x7b' ::
      ((Text.commas (fields.map writeField)).toList ++ ['\x7d']) := by
    rw [write, writeFields_eq]
    simp
  refine ⟨⟨'\x7b', _, hwrite, by decide, by decide⟩, fun fuel rest h => ?_⟩
  rw [hwrite, List.length_cons, List.length_append, List.length_singleton] at h
  obtain ⟨fuel, rfl⟩ : ∃ k, fuel = k + 1 := ⟨fuel - 1, by omega⟩
  rw [hwrite, List.cons_append, List.append_assoc, List.singleton_append, readValue,
    if_pos (beq_self_eq_true _)]
  · cases fields with
    | nil => rfl
    | cons f fields =>
      obtain ⟨cs, heq⟩ := head_writeField f
      obtain ⟨tail, htail⟩ := head_commas heq (fields.map writeField) ('\x7d' :: rest)
      have hread : readFields fuel [] _ = _ := readFields_write hfs hnames (by omega) rest
      rw [List.map_cons, htail, List.nil_append] at hread
      rw [List.map_cons, htail, skip_cons rfl]
      exact hread
  · decide
  · decide

theorem Reads.read_write (h : Reads d) : Json.read (write d) = .ok d := by
  obtain ⟨c, cs, heq, hc, -⟩ := h.starts
  have hread := h.read_eq (2 * (write d).toList.length + 2) [] (by omega)
  rw [List.append_nil] at hread
  rw [Json.read, heq, skip_cons hc, ← heq, hread]
  rfl

end AutoCool.Json
