import Mathlib.Data.List.Basic
import PhpSpx.Lib.JsonString

/-!
# JSON texts

The grammar of JSON as a relation between texts and values, a text being made of bytes each
written as the character with that code, and a scanner that sees misplaced commas.

* `IsText` — a value with blanks around it.
* `scan` — the scanner, which knows whether it is within a string and the last character
  outside that was not blank.
* `IsText.scans` — no comma of a JSON text is misplaced.
* `isValue_array` — texts with commas between them are the elements of an array.
* `scan_missing` — the scanner stops where one of the texts is missing.
-/

namespace PhpSpx.Lib.Json

/-! ## Grammar -/

/-- A JSON value.  A number is kept as its literal. -/
inductive Value where
  | null
  | bool (b : Bool)
  | number (literal : List Char)
  | string (items : List JsonString.Item)
  | array (elements : List Value)
  | object (members : List (List JsonString.Item × Value))

/-- White space between tokens. -/
def isBlank (c : Char) : Bool := c = ' ' ∨ c = '\t' ∨ c = '\n' ∨ c = '\r'

/-- A possibly empty run of white space. -/
def Blank (w : List Char) : Prop := ∀ c ∈ w, isBlank c = true

/-- One or more digits. -/
def IsDigits (ds : List Char) : Prop := ds ≠ [] ∧ ∀ c ∈ ds, c.isDigit = true

/-- The sign an exponent may have. -/
def IsExponentSign (sign : List Char) : Prop := sign = [] ∨ sign = ['+'] ∨ sign = ['-']

/-- The literals of numbers. -/
inductive IsNumber : List Char → Prop
  | mk {minus whole frac expo : List Char} (hminus : minus = [] ∨ minus = ['-'])
      (hwhole : IsDigits whole) (hzero : whole = ['0'] ∨ whole.head? ≠ some '0')
      (hfrac : frac = [] ∨ ∃ ds, IsDigits ds ∧ frac = '.' :: ds)
      (hexpo : expo = [] ∨ ∃ e sign ds, (e = 'e' ∨ e = 'E') ∧ IsExponentSign sign ∧
        IsDigits ds ∧ expo = e :: (sign ++ ds)) :
      IsNumber (minus ++ (whole ++ (frac ++ expo)))

/-- The literals of strings, with what is between the quotes. -/
def IsString (t : List Char) (items : List JsonString.Item) : Prop :=
  ∃ s, t = '"' :: s ∧ JsonString.items s = some items

mutual

/-- A value with blanks around it. -/
inductive IsText : List Char → Value → Prop
  | mk {w t w' : List Char} {v : Value} (hw : Blank w) (ht : IsValue t v) (hw' : Blank w') :
      IsText (w ++ (t ++ w')) v

/-- A value. -/
inductive IsValue : List Char → Value → Prop
  | null : IsValue "null".toList .null
  | true : IsValue "true".toList (.bool true)
  | false : IsValue "false".toList (.bool false)
  | number {t : List Char} (ht : IsNumber t) : IsValue t (.number t)
  | string {t : List Char} {items : List JsonString.Item} (ht : IsString t items) :
      IsValue t (.string items)
  | emptyArray {w : List Char} (hw : Blank w) : IsValue ('[' :: (w ++ [']'])) (.array [])
  | array {t : List Char} {vs : List Value} (ht : IsElements t vs) :
      IsValue ('[' :: (t ++ [']'])) (.array vs)
  | emptyObject {w : List Char} (hw : Blank w) : IsValue ('\x7b' :: (w ++ ['\x7d'])) (.object [])
  | object {t : List Char} {members : List (List JsonString.Item × Value)}
      (ht : IsMembers t members) : IsValue ('\x7b' :: (t ++ ['\x7d'])) (.object members)

/-- The elements of an array. -/
inductive IsElements : List Char → List Value → Prop
  | one {t : List Char} {v : Value} (ht : IsText t v) : IsElements t [v]
  | cons {t ts : List Char} {v : Value} {vs : List Value} (ht : IsText t v)
      (hts : IsElements ts vs) : IsElements (t ++ ',' :: ts) (v :: vs)

/-- The members of an object. -/
inductive IsMembers : List Char → List (List JsonString.Item × Value) → Prop
  | one {w k w' t : List Char} {key : List JsonString.Item} {v : Value} (hw : Blank w)
      (hk : IsString k key) (hw' : Blank w') (ht : IsText t v) :
      IsMembers (w ++ (k ++ (w' ++ ':' :: t))) [(key, v)]
  | cons {w k w' t ts : List Char} {key : List JsonString.Item} {v : Value}
      {members : List (List JsonString.Item × Value)} (hw : Blank w) (hk : IsString k key)
      (hw' : Blank w') (ht : IsText t v) (hts : IsMembers ts members) :
      IsMembers (w ++ (k ++ (w' ++ ':' :: (t ++ ',' :: ts)))) ((key, v) :: members)

end

/-! ## The scanner -/

/-- Where the scanner is: outside a string, after the character `last`, inside one, or
behind a backslash there. -/
inductive Place where
  | outside (last : Char)
  | inside
  | escaped
  deriving DecidableEq

/-- The characters a comma cannot follow. -/
def expects (last : Char) : Bool := last = '[' ∨ last = '\x7b' ∨ last = ',' ∨ last = ':'

/-- One character; none when it is a comma that nothing stands before, or a bracket that
closes an array behind a comma. -/
def scanStep : Place → Char → Option Place
  | .outside last, c =>
    if isBlank c then some (.outside last)
    else if c = '"' then some .inside
    else if c = ',' ∧ expects last = true ∨ c = ']' ∧ last = ',' then none
    else some (.outside c)
  | .inside, c =>
    if c = '"' then some (.outside '"')
    else if c = '\\' then some .escaped
    else some .inside
  | .escaped, _ => some .inside

/-- The scanner on a text. -/
def scan (p : Place) (t : List Char) : Option Place := t.foldlM scanStep p

@[simp] theorem scan_nil (p : Place) : scan p [] = some p := rfl

theorem scan_cons (p : Place) (c : Char) (t : List Char) :
    scan p (c :: t) = (scanStep p c).bind fun p => scan p t := List.foldlM_cons

theorem scan_append (p : Place) (t t' : List Char) :
    scan p (t ++ t') = (scan p t).bind fun p => scan p t' := List.foldlM_append

/-- The scanner gets over a text and is then where a comma may follow. -/
def Scans (t : List Char) : Prop :=
  ∀ last, ∃ c, expects c = false ∧ scan (.outside last) t = some (.outside c)

theorem scan_blank {w : List Char} (hw : Blank w) (last : Char) :
    scan (.outside last) w = some (.outside last) := by
  induction w with
  | nil => rfl
  | cons c w ih =>
    have hc : isBlank c = true := hw c List.mem_cons_self
    rw [scan_cons, scanStep, if_pos hc]
    exact ih fun c' hc' => hw c' (List.mem_cons_of_mem _ hc')

/-- A character that is no token of its own. -/
def IsPlain (c : Char) : Prop :=
  isBlank c = false ∧ c ≠ '"' ∧ c ≠ ']' ∧ expects c = false

theorem scanStep_plain {c : Char} (hc : IsPlain c) (last : Char) :
    scanStep (.outside last) c = some (.outside c) := by
  obtain ⟨hblank, hquote, hclose, hexpects⟩ := hc
  have hcomma : c ≠ ',' := by
    rintro rfl
    exact absurd hexpects (by decide)
  simp [scanStep, hblank, hquote, hclose, hcomma]

theorem scans_plain {t : List Char} (hne : t ≠ []) (ht : ∀ c ∈ t, IsPlain c) : Scans t := by
  intro last
  induction t generalizing last with
  | nil => exact absurd rfl hne
  | cons c t ih =>
    have hc : IsPlain c := ht c List.mem_cons_self
    rw [scan_cons, scanStep_plain hc]
    rcases eq_or_ne t [] with rfl | hnext
    · exact ⟨c, hc.2.2.2, rfl⟩
    · exact ih hnext (fun c' hc' => ht c' (List.mem_cons_of_mem _ hc')) c

theorem isPlain_of_isDigit {c : Char} (hc : c.isDigit = true) : IsPlain c := by
  refine ⟨?_, ?_, ?_, ?_⟩
  · rw [Bool.eq_false_iff]
    intro hblank
    simp only [isBlank, Bool.decide_or, Bool.or_eq_true, decide_eq_true_eq] at hblank
    rcases hblank with rfl | rfl | rfl | rfl <;> exact absurd hc (by decide)
  · rintro rfl
    exact absurd hc (by decide)
  · rintro rfl
    exact absurd hc (by decide)
  · rw [Bool.eq_false_iff]
    intro hexpects
    simp only [expects, Bool.decide_or, Bool.or_eq_true, decide_eq_true_eq] at hexpects
    rcases hexpects with rfl | rfl | rfl | rfl <;> exact absurd hc (by decide)

theorem IsNumber.scans {t : List Char} (ht : IsNumber t) : Scans t := by
  cases ht with
  | @mk minus whole frac expo hminus hwhole hzero hfrac hexpo =>
    have hdigits : ∀ {ds}, IsDigits ds → ∀ c ∈ ds, IsPlain c := fun hds c hc =>
      isPlain_of_isDigit (hds.2 c hc)
    have hother : ∀ c ∈ ['-', '+', '.', 'e', 'E'], IsPlain c := by
      simp [IsPlain, isBlank, expects]
    apply scans_plain
    · simp [hwhole.1]
    · intro c hc
      simp only [List.mem_append] at hc
      rcases hc with hc | hc | hc | hc
      · rcases hminus with rfl | rfl
        · exact absurd hc List.not_mem_nil
        · exact hother c (by simp_all)
      · exact hdigits hwhole c hc
      · rcases hfrac with rfl | ⟨ds, hds, rfl⟩
        · exact absurd hc List.not_mem_nil
        · rcases List.mem_cons.mp hc with rfl | hc
          · exact hother _ (by simp)
          · exact hdigits hds c hc
      · rcases hexpo with rfl | ⟨e, sign, ds, he, hsign, hds, rfl⟩
        · exact absurd hc List.not_mem_nil
        · rcases List.mem_cons.mp hc with rfl | hc
          · exact hother _ (by rcases he with rfl | rfl <;> simp)
          · rcases List.mem_append.mp hc with hc | hc
            · exact hother c (by rcases hsign with rfl | rfl | rfl <;> simp_all)
            · exact hdigits hds c hc

/-! ### Strings -/

/-- A character that stays within a string. -/
theorem scan_inside {c : Char} (hquote : c ≠ '"') (hbackslash : c ≠ '\\') (t : List Char) :
    scan .inside (c :: t) = scan .inside t := by
  rw [scan_cons, scanStep, if_neg hquote, if_neg hbackslash]
  rfl

theorem scan_hexDigit {c : Char} (hc : (JsonString.hexValue c).isSome = true) (t : List Char) :
    scan .inside (c :: t) = scan .inside t := by
  apply scan_inside
  · rintro rfl
    exact absurd hc (by decide)
  · rintro rfl
    exact absurd hc (by decide)

theorem scan_codeUnit {x y z w : Char} {n : ℕ} (h : JsonString.codeUnit x y z w = some n)
    (t : List Char) : scan .inside (x :: y :: z :: w :: t) = scan .inside t := by
  simp only [JsonString.codeUnit, Option.bind_eq_bind, Option.bind_eq_some_iff] at h
  obtain ⟨a, hx, b, hy, c, hz, d, hw, -⟩ := h
  rw [scan_hexDigit (Option.isSome_iff_exists.mpr ⟨a, hx⟩),
    scan_hexDigit (Option.isSome_iff_exists.mpr ⟨b, hy⟩),
    scan_hexDigit (Option.isSome_iff_exists.mpr ⟨c, hz⟩),
    scan_hexDigit (Option.isSome_iff_exists.mpr ⟨d, hw⟩)]

/-- The scanner is inside a string up to its closing quote. -/
theorem scan_items {s : List Char} {items : List JsonString.Item}
    (hs : JsonString.items s = some items) : scan .inside s = some (.outside '"') := by
  fun_induction JsonString.items s generalizing items with
  | case1 => exact nomatch hs
  | case2 => rfl
  | case3 => exact nomatch hs
  | case4 => exact nomatch hs
  | case5 x y z w s _ ih =>
    obtain ⟨n, hn, hrest⟩ := Option.bind_eq_some_iff.mp hs
    obtain ⟨rest, hrest, -⟩ := Option.bind_eq_some_iff.mp hrest
    have hescape : scan .inside ('\\' :: 'u' :: x :: y :: z :: w :: s) =
        scan .inside (x :: y :: z :: w :: s) := rfl
    rw [hescape, scan_codeUnit hn, ih hrest]
  | case6 => exact nomatch hs
  | case7 e s _ _ ih =>
    obtain ⟨c, -, hrest⟩ := Option.bind_eq_some_iff.mp hs
    obtain ⟨rest, hrest, -⟩ := Option.bind_eq_some_iff.mp hrest
    exact ih hrest
  | case8 => exact nomatch hs
  | case9 c s hquote hbackslash _ ih =>
    obtain ⟨rest, hrest, -⟩ := Option.map_eq_some_iff.mp hs
    rw [scan_inside hquote hbackslash, ih hrest]

theorem IsString.scan {t : List Char} {items : List JsonString.Item} (ht : IsString t items)
    (last : Char) : Json.scan (.outside last) t = some (.outside '"') := by
  obtain ⟨s, rfl, hs⟩ := ht
  exact scan_items hs

theorem IsString.scans {t : List Char} {items : List JsonString.Item} (ht : IsString t items) :
    Scans t := fun last => ⟨'"', by decide, ht.scan last⟩

/-- Bytes that need no escape are a literal of themselves. -/
theorem isString_of_plain {cs : List Char}
    (h : ∀ c ∈ cs, 0x20 ≤ c.toNat ∧ c ≠ '"' ∧ c ≠ '\\') :
    IsString ('"' :: (cs ++ ['"'])) (cs.map .byte) := by
  refine ⟨_, rfl, ?_⟩
  induction cs with
  | nil => rfl
  | cons c cs ih =>
    obtain ⟨hcontrol, hquote, hbackslash⟩ := h c List.mem_cons_self
    rw [List.cons_append, JsonString.items_plain hcontrol hquote hbackslash,
      ih fun c' hc' => h c' (List.mem_cons_of_mem _ hc')]
    rfl

/-! ### No comma of a JSON text is misplaced -/

/-- What brackets enclose is scanned from the opening bracket. -/
theorem scan_opening {c : Char} (hc : c = '[' ∨ c = '\x7b') (last : Char) (t : List Char) :
    scan (.outside last) (c :: t) = scan (.outside c) t := by
  rcases hc with rfl | rfl <;> rfl

/-- A bracket closes behind anything but a comma. -/
theorem scan_closing {c last : Char} (hc : c = ']' ∨ c = '\x7d') (hlast : last ≠ ',') :
    scan (.outside last) [c] = some (.outside c) := by
  rcases hc with rfl | rfl <;> simp [scan, scanStep, isBlank, hlast]

/-- A comma is scanned where one may follow. -/
theorem scan_comma {c : Char} (hc : expects c = false) (t : List Char) :
    scan (.outside c) (',' :: t) = scan (.outside ',') t := by
  rw [scan_cons]
  simp [scanStep, isBlank, hc]

theorem ne_comma_of_expects {c : Char} (hc : expects c = false) : c ≠ ',' := by
  rintro rfl
  exact absurd hc (by decide)

theorem Scans.ne_nil {t : List Char} (ht : Scans t) : t ≠ [] := by
  rintro rfl
  obtain ⟨c, hc, hscan⟩ := ht ','
  obtain rfl : ',' = c := by simpa using hscan
  exact absurd hc (by decide)

theorem Scans.blanks {w t w' : List Char} (hw : Blank w) (ht : Scans t) (hw' : Blank w') :
    Scans (w ++ (t ++ w')) := by
  intro last
  obtain ⟨c, hc, hscan⟩ := ht last
  refine ⟨c, hc, ?_⟩
  rw [scan_append, scan_blank hw, Option.bind_some, scan_append, hscan, Option.bind_some,
    scan_blank hw']

theorem Scans.brackets {t : List Char} {c c' : Char} (hopen : c = '[' ∨ c = '\x7b')
    (hclose : c' = ']' ∨ c' = '\x7d') (ht : Scans t) : Scans (c :: (t ++ [c'])) := by
  intro last
  obtain ⟨d, hd, hscan⟩ := ht c
  refine ⟨c', by rcases hclose with rfl | rfl <;> rfl, ?_⟩
  rw [scan_opening hopen, scan_append, hscan, Option.bind_some,
    scan_closing hclose (ne_comma_of_expects hd)]

theorem scans_emptyBrackets {w : List Char} {c c' : Char} (hopen : c = '[' ∨ c = '\x7b')
    (hclose : c' = ']' ∨ c' = '\x7d') (hw : Blank w) : Scans (c :: (w ++ [c'])) := by
  intro last
  refine ⟨c', by rcases hclose with rfl | rfl <;> rfl, ?_⟩
  rw [scan_opening hopen, scan_append, scan_blank hw, Option.bind_some, scan_closing hclose]
  rcases hopen with rfl | rfl <;> decide

theorem Scans.comma {t t' : List Char} (ht : Scans t) (ht' : Scans t') :
    Scans (t ++ ',' :: t') := by
  intro last
  obtain ⟨c, hc, hscan⟩ := ht last
  obtain ⟨c', hc', hscan'⟩ := ht' ','
  refine ⟨c', hc', ?_⟩
  rw [scan_append, hscan, Option.bind_some, scan_comma hc, hscan']

theorem Scans.member {w k w' t : List Char} {key : List JsonString.Item} (hw : Blank w)
    (hk : IsString k key) (hw' : Blank w') (ht : Scans t) :
    Scans (w ++ (k ++ (w' ++ ':' :: t))) := by
  intro last
  obtain ⟨c, hc, hscan⟩ := ht ':'
  refine ⟨c, hc, ?_⟩
  rw [scan_append, scan_blank hw, Option.bind_some, scan_append, hk.scan, Option.bind_some,
    scan_append, scan_blank hw', Option.bind_some]
  exact hscan

mutual

/-- No comma of a JSON text is misplaced. -/
theorem IsText.scans {t : List Char} {v : Value} : IsText t v → Scans t
  | .mk hw ht hw' => ht.scans.blanks hw hw'

theorem IsValue.scans {t : List Char} {v : Value} : IsValue t v → Scans t
  | .null => scans_plain (by decide) (by simp [IsPlain, isBlank, expects])
  | .true => scans_plain (by decide) (by simp [IsPlain, isBlank, expects])
  | .false => scans_plain (by decide) (by simp [IsPlain, isBlank, expects])
  | .number ht => ht.scans
  | .string ht => ht.scans
  | .emptyArray hw => scans_emptyBrackets (.inl rfl) (.inl rfl) hw
  | .array ht => ht.scans.brackets (.inl rfl) (.inl rfl)
  | .emptyObject hw => scans_emptyBrackets (.inr rfl) (.inr rfl) hw
  | .object ht => ht.scans.brackets (.inr rfl) (.inr rfl)

theorem IsElements.scans {t : List Char} {vs : List Value} : IsElements t vs → Scans t
  | .one ht => ht.scans
  | .cons ht hts => ht.scans.comma hts.scans

theorem IsMembers.scans {t : List Char} {members : List (List JsonString.Item × Value)} :
    IsMembers t members → Scans t
  | .one hw hk hw' ht => ht.scans.member hw hk hw'
  | .cons hw hk hw' ht hts => (ht.scans.comma hts.scans).member hw hk hw'

end

/-! ## Lists of texts -/

/-- A list of texts with commas between them is the elements of an array. -/
theorem isElements_of_forall {t : List Char} {v : Value} (ht : IsText t v)
    {ts : List (List Char)} {vs : List Value} (hts : List.Forall₂ IsText ts vs) :
    IsElements (t ++ ts.flatMap (',' :: ·)) (v :: vs) := by
  induction hts generalizing t v with
  | nil =>
    rw [List.flatMap_nil, List.append_nil]
    exact .one ht
  | cons ht' _ ih => exact .cons ht (ih ht')

/-- Texts with commas between them. -/
def commaSeparated : List (List Char) → List Char
  | [] => []
  | t :: ts => t ++ ts.flatMap (',' :: ·)

theorem IsText.blank_append {w t : List Char} {v : Value} (hw : Blank w) (ht : IsText t v) :
    IsText (w ++ t) v := by
  cases ht with
  | @mk w₁ t w₂ _ hw₁ ht hw₂ =>
    have hblank : Blank (w ++ w₁) := by
      intro c hc
      exact (List.mem_append.mp hc).elim (hw c) (hw₁ c)
    have htext := IsText.mk hblank ht hw₂
    rwa [List.append_assoc] at htext

/-- Texts with commas between them are the elements of an array. -/
theorem isValue_array {w : List Char} (hw : Blank w) {ts : List (List Char)} {vs : List Value}
    (hts : List.Forall₂ IsText ts vs) :
    IsValue ('[' :: (w ++ commaSeparated ts ++ [']'])) (.array vs) := by
  cases hts with
  | nil =>
    rw [commaSeparated, List.append_nil]
    exact .emptyArray hw
  | cons ht hts =>
    rw [commaSeparated, ← List.append_assoc]
    exact .array (isElements_of_forall (ht.blank_append hw) hts)

/-- Texts that are JSON have values. -/
theorem exists_forall₂_isText {ts : List (List Char)} (hts : ∀ t ∈ ts, ∃ v, IsText t v) :
    ∃ vs, List.Forall₂ IsText ts vs := by
  induction ts with
  | nil => exact ⟨[], .nil⟩
  | cons t ts ih =>
    obtain ⟨v, hv⟩ := hts t List.mem_cons_self
    obtain ⟨vs, hvs⟩ := ih fun t' ht' => hts t' (List.mem_cons_of_mem _ ht')
    exact ⟨v :: vs, .cons hv hvs⟩

/-- Where a text is missing between the brackets of an array, next to a comma, the scanner
stops: behind the opening bracket or a comma when another comma follows, or behind a comma
when the array ends. -/
theorem scan_missing_from {last : Char} {t : List Char} {ts : List (List Char)}
    (hlast : last = ',' ∨ last = '[' ∧ ts ≠ []) (hmissing : [] ∈ t :: ts)
    (hts : ∀ t' ∈ t :: ts, t' = [] ∨ Scans t') (rest : List Char) :
    scan (.outside last) (t ++ (ts.flatMap (',' :: ·) ++ ']' :: rest)) = none := by
  induction ts generalizing last t with
  | nil =>
    obtain rfl : t = [] := by simpa [eq_comm] using hmissing
    obtain rfl : last = ',' := by simpa using hlast
    rfl
  | cons t' ts ih =>
    rcases hts t List.mem_cons_self with rfl | ht
    · rcases hlast with rfl | ⟨rfl, -⟩ <;> rfl
    · obtain ⟨c, hc, hscan⟩ := ht last
      have hnext : [] ∈ t' :: ts := (List.mem_cons.mp hmissing).resolve_left ht.ne_nil.symm
      rw [scan_append, hscan, Option.bind_some, List.flatMap_cons, List.cons_append,
        List.cons_append, scan_comma hc, List.append_assoc]
      exact ih (.inl rfl) hnext fun t'' ht'' => hts t'' (List.mem_cons_of_mem _ ht'')

/-- Among two or more texts none may be missing. -/
theorem scan_missing {ts : List (List Char)} (hlen : 2 ≤ ts.length) (hmissing : [] ∈ ts)
    (hts : ∀ t ∈ ts, t = [] ∨ Scans t) (rest : List Char) :
    scan (.outside '[') (commaSeparated ts ++ ']' :: rest) = none := by
  obtain ⟨t, ts, rfl⟩ := List.exists_cons_of_length_pos (Nat.lt_of_lt_of_le Nat.two_pos hlen)
  have hne : ts ≠ [] := by
    rintro rfl
    exact absurd hlen (by simp)
  rw [commaSeparated, List.append_assoc]
  exact scan_missing_from (.inr ⟨rfl, hne⟩) hmissing hts rest

end PhpSpx.Lib.Json
